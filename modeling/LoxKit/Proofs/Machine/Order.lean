import LoxKit.Proofs.Machine.Classes
import LoxKit.Proofs.Machine.Quiet

/-!
# The order of moments

What a moment leads to happens one after the other: of two moments, one is around the other, or one
has ended when the other begins. Identities are given out in this order and never taken back, so
that no two declarations give out the same one.

Headlines:
* `Moment.keeps`: what every change of a store keeps is kept by all that runs.
* `Calls.ended`: what a moment leads to has ended when the moment has.
* `Moment.Precedes`: a moment has ended when another begins.
* **`Moment.compare`**: two moments that a run comes to are in order.
* **`Makes.of_id_eq`**: no two declarations give out the same identity.
-/

namespace LoxKit

open LoxKit.Action

/-! ## What every change keeps -/

section Changing

variable {h : Host} {m m' : Moment} {s s' : Store} {R : Store → Store → Prop}

/-- A relation that is kept by all the ways in which a store changes. -/
structure Kept (R : Store → Store → Prop) : Prop where
  refl : ∀ s, R s s
  trans : ∀ {s s' s''}, R s s' → R s' s'' → R s s''
  aside : ∀ {s s'}, s'.frames = s.frames → s.objects.size ≤ s'.objects.size →
    s.fresh ≤ s'.fresh → R s s'
  pushed : ∀ s b, R s { s with frames := s.frames.push b }
  defined : ∀ s id name v, R s { s with frames := s.frames.define id name v }

theorem Kept.of_steps (hR : Kept R) {S : Store → Store → Prop} (hs : Relation.ReflTransGen S s s')
    (hS : ∀ {s s'}, S s s' → R s s') : R s s' := by
  induction hs with
  | refl => exact hR.refl s
  | tail _ hstep hbefore => exact hR.trans hbefore (hS hstep)

theorem Kept.passes (hR : Kept R) (hp : Passes h m s s')
    (hcalled : ∀ m' s', Calls h m m' → m'.leaves? h = some s' → R m'.store s') : R s s' := by
  cases hp with
  | called hc hl => exact hcalled _ _ hc hl
  | aside hf ho hi => exact hR.aside hf ho hi
  | pushed b => exact hR.pushed s b

theorem Kept.changes (hR : Kept R) (hp : Changes h m s s')
    (hcalled : ∀ m' s', Calls h m m' → m'.leaves? h = some s' → R m'.store s') : R s s' := by
  cases hp with
  | passes hp => exact hR.passes hp hcalled
  | @declared st fuel depth chain s₀ _ _ name v _ _ hd =>
    cases chain with
    | nil => cases hd
    | cons id rest =>
      cases hd
      exact hR.defined s id name v
  | assigned _ hd =>
    unfold store at hd
    split at hd
    all_goals
      split at hd <;> cases hd
      exact hR.defined s _ _ _

/-- What every change of a store keeps is kept by what begins in a moment, -/
theorem Moment.keeps (hR : Kept R) (hl : m.leaves? h = some s') : R m.store s' := by
  -- by induction on the steps allowed: what is called has fewer
  induction hfuel : m.fuel using Nat.strongRecOn generalizing m s' with
  | ind fuel ih =>
    refine hR.of_steps (Moment.traced hl) fun hp => hR.changes hp fun m' s' hc hl' => ?_
    exact ih m'.fuel (hfuel ▸ hc.fuel_lt) hl' rfl

/-- and by what happens before a moment leads to another. -/
theorem Calls.keeps (hR : Kept R) (hc : Calls h m m') : R m.store m'.store :=
  hR.of_steps hc.traced fun hp => hR.passes hp fun _ _ _ hl => Moment.keeps hR hl

theorem kept_fresh : Kept fun s s' => s.fresh ≤ s'.fresh where
  refl _ := Nat.le_refl _
  trans := Nat.le_trans
  aside _ _ hi := hi
  pushed _ _ := Nat.le_refl _
  defined _ _ _ _ := Nat.le_refl _

/-- No identity is taken back by what begins in a moment. -/
theorem Moment.fresh_le (hl : m.leaves? h = some s') : m.store.fresh ≤ s'.fresh :=
  Moment.keeps kept_fresh hl

theorem Calls.fresh_le (hc : Calls h m m') : m.store.fresh ≤ m'.store.fresh :=
  hc.keeps kept_fresh

end Changing

/-! ## Actions that take nothing back -/

/-- An action takes no identity back. -/
def Grows {α : Type} (a : Action α) : Prop :=
  ∀ s s', (a s).store? = some s' → s.fresh ≤ s'.fresh

/-- An outcome has ended by the time of a store. -/
def EndedBy {α : Type} (s' : Store) (o : Outcome α) : Prop :=
  ∃ s₁, o.store? = some s₁ ∧ s₁.fresh ≤ s'.fresh

section Growth

variable {α β : Type} {h : Host} {s s' : Store} {fuel depth : Nat} {chain : Chain}

theorem EndedBy.refl {o : Outcome α} (hl : o.store? = some s') : EndedBy s' o :=
  ⟨s', hl, Nat.le_refl _⟩

theorem EndedBy.map {o : Outcome α} (f : α → β) (ho : EndedBy s' o) : EndedBy s' (o.map f) := by
  obtain ⟨s₁, hs₁, hle⟩ := ho
  exact ⟨s₁, by rw [Outcome.store?_map, hs₁], hle⟩

/-- If there is an end, then the first of two actions has ended before. -/
theorem Grows.first {a : Action α} {f : α → Action β} (hf : ∀ x, Grows (f x))
    (hl : ((a >>= f) s).store? = some s') : EndedBy s' (a s) := by
  change (Action.bind a f s).store? = some s' at hl
  unfold Action.bind at hl
  cases ha : a s with
  | done x s₁ =>
    rw [ha] at hl
    exact ⟨s₁, rfl, hf x s₁ s' hl⟩
  | failed error line s₁ =>
    rw [ha] at hl
    exact .refl hl
  | broken | unfinished =>
    rw [ha] at hl
    cases hl

theorem Grows.bind {a : Action α} {f : α → Action β} (ha : Grows a) (hf : ∀ x, Grows (f x)) :
    Grows (a >>= f) := by
  intro s s' hl
  obtain ⟨s₁, hs₁, hle⟩ := Grows.first hf hl
  exact Nat.le_trans (ha s s₁ hs₁) hle

theorem grows_pure (a : α) : Grows (pure a : Action α) :=
  fun _ _ hl => by cases hl; exact Nat.le_refl _

theorem grows_fail (error : RuntimeError) (line : Nat) : Grows (fail error line : Action α) :=
  fun _ _ hl => by cases hl; exact Nat.le_refl _

theorem grows_ite {c : Prop} [Decidable c] {a b : Action α} (ha : Grows a) (hb : Grows b) :
    Grows (if c then a else b) := by
  split
  · exact ha
  · exact hb

theorem grows_operator (line : Nat) (r : Except RuntimeError Value) :
    Grows (ofOperator line r) := by
  cases r with
  | ok v => exact grows_pure v
  | error e => exact grows_fail e line

theorem grows_access (r : Except AccessFault α) : Grows (ofAccess r) := by
  cases r with
  | ok a => exact grows_pure a
  | error fault => exact fun _ _ hl => by cases hl

theorem grows_change {f : Store → Store} (hf : ∀ s, (f s).fresh = s.fresh) : Grows (change f) :=
  fun s _ hl => by cases hl; exact Nat.le_of_eq (hf s).symm

theorem grows_printLine (line : String) : Grows (printLine line) :=
  grows_change fun _ => rfl

theorem grows_setField (o : Object) (name : String) (v : Value) : Grows (setField o name v) :=
  grows_change fun _ => rfl

theorem grows_defineIn (chain : Chain) (name : String) (v : Value) :
    Grows (defineIn chain name v) := by
  cases chain with
  | nil => exact fun _ _ hl => by cases hl
  | cons id rest => exact grows_change fun _ => rfl

theorem grows_store (chain : Chain) (r : Reference Link) (v : Value) :
    Grows (store chain r v) := by
  intro s s' hl
  unfold store at hl
  split at hl
  all_goals
    split at hl <;> cases hl <;> exact Nat.le_refl _

theorem Grows.of_map {a : Action α} (f : α → β) (ha : Grows fun s => (a s).map f) : Grows a :=
  fun s s' hl => ha s s' (by rw [Outcome.store?_map, hl])

theorem grows_run (n : Node Link) : Grows (n.run h fuel depth chain) :=
  fun s _ hl => Moment.fresh_le (m := .run n fuel depth chain s) hl

theorem grows_evaluate (e : Expr Link) : Grows (evaluate h fuel depth chain e) :=
  .of_map Answer.value (grows_run (.expr e))

theorem grows_evaluateAll (es : List (Expr Link)) : Grows (evaluateAll h fuel depth chain es) :=
  .of_map Answer.values (grows_run (.exprs es))

theorem grows_execute (st : Stmt Link) : Grows (execute h fuel depth chain st) :=
  .of_map Answer.completion (grows_run (.stmt st))

theorem grows_executeAll (sts : List (Stmt Link)) : Grows (executeAll h fuel depth chain sts) :=
  .of_map Answer.completion (grows_run (.stmts sts))

theorem grows_repeatWhile (condition : Expr Link) (body : Stmt Link) :
    Grows (repeatWhile h fuel depth chain condition body) :=
  .of_map Answer.completion (grows_run (.loop condition body))

theorem grows_apply (f : Value) (args : List Value) : Grows (apply h fuel depth f args) :=
  fun s _ hl => Moment.fresh_le (m := .apply f args fuel depth s) hl

theorem grows_invoke (c : Closure) (args : List Value) : Grows (invoke h fuel depth c args) :=
  fun s _ hl => Moment.fresh_le (m := .invoke c args fuel depth s) hl

theorem grows_bindMethod (c : Closure) (o : Object) : Grows (bindMethod c o) :=
  fun s _ hl => Moment.fresh_le (h := ⟨fun _ => 0, 0⟩) (m := .bind c o s) hl

theorem grows_getProperty (o : Object) (name : Name) : Grows (getProperty o name) := by
  intro s s' hl
  unfold getProperty at hl
  split at hl
  · cases hl
    exact Nat.le_refl _
  · split at hl
    · exact (grows_bindMethod _ _).bind (fun _ => grows_pure _) s s' hl
    · cases hl
      exact Nat.le_refl _

/-- What happens to a callee and its arguments. -/
theorem grows_called (f : Value) (vs : List Value) {paren : Pos} :
    Grows (match f.arity? with
      | none => fail .notCallable paren.line
      | some arity =>
        if vs.length ≠ arity then fail (.wrongArity arity vs.length) paren.line
        else if h.callLimit ≤ depth then fail .stackOverflow paren.line
        else apply h fuel (depth + 1) f vs : Action Value) := by
  cases f.arity? with
  | none => exact grows_fail _ _
  | some arity => exact grows_ite (grows_fail _ _) (grows_ite (grows_fail _ _) (grows_apply f vs))

end Growth

/-! ## What has ended -/

section Ending

variable {h : Host} {n n' : Node Link} {fuel depth i : Nat} {chain : Chain} {s s₁ s' : Store}
  {m m' : Moment}

/-- The parts of an expression have ended when it has. -/
theorem ended_expr {e : Expr Link} (hs : Stage h (.expr e) fuel depth chain s i s₁)
    (hn : (Node.expr e).part i = some n')
    (hl : (evaluate h (fuel + 1) depth chain e s).store? = some s') :
    EndedBy s' (n'.run h fuel depth chain s₁) := by
  simp only [Node.part] at hn
  unfold Node.exprPart at hn
  split at hn <;> cases hn
  case h_1 =>
    obtain rfl := hs.zero
    rw [evaluate] at hl
    exact .map Answer.value (.refl hl)
  case h_2 =>
    obtain rfl := hs.zero
    rw [evaluate] at hl
    exact .map Answer.value (Grows.first (fun _ => grows_operator _ _) hl)
  case h_3 =>
    obtain rfl := hs.zero
    rw [evaluate] at hl
    refine .map Answer.value (Grows.first (fun _ => ?_) hl)
    exact (grows_evaluate _).bind fun _ => grows_operator _ _
  case h_4 =>
    obtain ⟨v, hv, -⟩ := hs.behind_expr rfl
    rw [evaluate, Action.bind_of_done hv] at hl
    exact .map Answer.value (Grows.first (fun _ => grows_operator _ _) hl)
  case h_5 op pos lhs rhs =>
    obtain rfl := hs.zero
    rw [evaluate] at hl
    refine .map Answer.value (Grows.first (fun _ => ?_) hl)
    exact grows_ite (grows_pure _) (grows_evaluate _)
  case h_6 op pos lhs rhs =>
    obtain ⟨v, hv, hj⟩ := hs.behind_expr rfl
    rw [evaluate, Action.bind_of_done hv] at hl
    simp only [Node.next?] at hj
    split at hj
    · cases hj
    next hdecides =>
      have hrhs : (evaluate h fuel depth chain rhs s₁).store? = some s' :=
        (congrArg Outcome.store? (Action.ite_of_not hdecides)).symm.trans hl
      exact .map Answer.value (.refl hrhs)
  case h_7 target value =>
    obtain rfl := hs.zero
    rw [evaluate] at hl
    refine .map Answer.value (Grows.first (fun _ => ?_) hl)
    exact (grows_store _ _ _).bind fun _ => grows_pure _
  case h_8 callee args paren =>
    obtain rfl := hs.zero
    rw [evaluate] at hl
    refine .map Answer.value (Grows.first (fun f => ?_) hl)
    exact (grows_evaluateAll _).bind fun vs => grows_called f vs
  case h_9 callee args paren =>
    obtain ⟨f, hf, -⟩ := hs.behind_expr rfl
    rw [evaluate, Action.bind_of_done hf] at hl
    exact .map Answer.values (Grows.first (fun vs => grows_called f vs) hl)
  case h_10 object field =>
    obtain rfl := hs.zero
    rw [evaluate] at hl
    refine .map Answer.value (Grows.first (fun v => ?_) hl)
    cases v with
    | object o => exact grows_getProperty o field
    | _ => exact grows_fail _ _
  case h_11 object field value =>
    obtain rfl := hs.zero
    rw [evaluate] at hl
    refine .map Answer.value (Grows.first (fun v => ?_) hl)
    cases v with
    | object o =>
      exact (grows_evaluate _).bind fun _ => (grows_setField _ _ _).bind fun _ => grows_pure _
    | _ => exact grows_fail _ _
  case h_12 object field value =>
    obtain ⟨v, hv, hj⟩ := hs.behind_expr rfl
    rw [evaluate, Action.bind_of_done hv] at hl
    cases v with
    | object o =>
      refine .map Answer.value (Grows.first (fun _ => ?_) hl)
      exact (grows_setField _ _ _).bind fun _ => grows_pure _
    | _ => cases hj

/-- The expressions of a list have ended when it has. -/
theorem ended_exprs {es : List (Expr Link)} (hs : Stage h (.exprs es) fuel depth chain s i s₁)
    (hn : (Node.exprs es).part i = some n')
    (hl : (evaluateAll h (fuel + 1) depth chain es s).store? = some s') :
    EndedBy s' (n'.run h fuel depth chain s₁) := by
  rcases es with - | ⟨e, es⟩
  · cases hn
  rcases i with - | - | i
  · obtain rfl := hs.zero
    cases hn
    rw [evaluateAll] at hl
    refine .map Answer.value (Grows.first (fun _ => ?_) hl)
    exact (grows_evaluateAll _).bind fun _ => grows_pure _
  · obtain ⟨v, hv, -⟩ := hs.behind_expr rfl
    cases hn
    rw [evaluateAll, Action.bind_of_done hv] at hl
    exact .map Answer.values (Grows.first (fun _ => grows_pure _) hl)
  · cases hn

/-- The parts of a statement have ended when it has. The superclass of a class is not evaluated but
followed, and so it may lack the steps to be evaluated. -/
theorem ended_stmt {st : Stmt Link} (hs : Stage h (.stmt st) fuel depth chain s i s₁)
    (hn : (Node.stmt st).part i = some n') (hv : ∀ r, n' ≠ .expr (.var r))
    (hl : (execute h (fuel + 1) depth chain st s).store? = some s') :
    EndedBy s' (n'.run h fuel depth chain s₁) := by
  cases hc : n'.computes with
  | false =>
    refine .refl ?_
    rw [← ends_stmt hs hn hc, Node.run, Outcome.store?_map, hl]
  | true =>
    simp only [Node.part] at hn
    unfold Node.stmtPart at hn
    split at hn <;> cases hn <;> try cases hc
    case h_1 e =>
      obtain rfl := hs.zero
      rw [execute] at hl
      exact .map Answer.value (Grows.first (fun _ => grows_pure _) hl)
    case h_2 e =>
      obtain rfl := hs.zero
      rw [execute] at hl
      refine .map Answer.value (Grows.first (fun _ => ?_) hl)
      exact (grows_printLine _).bind fun _ => grows_pure _
    case h_3 name e =>
      obtain rfl := hs.zero
      rw [execute] at hl
      refine .map Answer.value (Grows.first (fun _ => ?_) hl)
      exact (grows_defineIn _ _ _).bind fun _ => grows_pure _
    case h_4 condition thenPart =>
      obtain rfl := hs.zero
      rw [execute] at hl
      refine .map Answer.value (Grows.first (fun _ => ?_) hl)
      exact grows_ite (grows_execute _) (grows_pure _)
    case h_6 condition thenPart elsePart =>
      obtain rfl := hs.zero
      rw [execute] at hl
      refine .map Answer.value (Grows.first (fun _ => ?_) hl)
      exact grows_ite (grows_execute _) (grows_execute _)
    case h_10 e =>
      obtain rfl := hs.zero
      rw [execute] at hl
      exact .map Answer.value (Grows.first (fun _ => grows_pure _) hl)
    case h_11 name r body => exact absurd rfl (hv r)

/-- What follows a statement in a row, or in a round of a loop. -/
theorem grows_next {next : Action Completion} (hnext : Grows next) (c : Completion) :
    Grows (match c with
      | .carryOn => next
      | .returned v => pure (.returned v) : Action Completion) := by
  cases c with
  | carryOn => exact hnext
  | returned v => exact grows_pure _

/-- The statements of a row have ended when it has. -/
theorem ended_stmts {sts : List (Stmt Link)} (hs : Stage h (.stmts sts) fuel depth chain s i s₁)
    (hn : (Node.stmts sts).part i = some n')
    (hl : (executeAll h (fuel + 1) depth chain sts s).store? = some s') :
    EndedBy s' (n'.run h fuel depth chain s₁) := by
  rcases sts with - | ⟨st, sts⟩
  · cases hn
  rcases i with - | - | i
  · obtain rfl := hs.zero
    cases hn
    rw [executeAll] at hl
    exact .map Answer.completion (Grows.first (grows_next (grows_executeAll _)) hl)
  · cases hn
    rw [executeAll, Action.bind_of_done hs.behind_stmt] at hl
    exact .map Answer.completion (.refl hl)
  · cases hn

/-- The parts of a round of a loop have ended when the loop has. -/
theorem ended_loop {condition : Expr Link} {body : Stmt Link}
    (hs : Stage h (.loop condition body) fuel depth chain s i s₁)
    (hn : (Node.loop condition body).part i = some n')
    (hl : (repeatWhile h (fuel + 1) depth chain condition body s).store? = some s') :
    EndedBy s' (n'.run h fuel depth chain s₁) := by
  have hloop : Grows (repeatWhile h fuel depth chain condition body) :=
    grows_repeatWhile condition body
  rcases i with - | - | - | i
  · obtain rfl := hs.zero
    cases hn
    rw [repeatWhile] at hl
    refine .map Answer.value (Grows.first (fun _ => ?_) hl)
    exact grows_ite ((grows_execute _).bind (grows_next hloop)) (grows_pure _)
  · cases hn
    rw [hs.repeats] at hl
    exact .map Answer.completion (Grows.first (grows_next hloop) hl)
  · obtain ⟨s₂, hs₂, hbody⟩ := hs.round
    cases hn
    rw [hs₂.repeats, Action.bind_of_done hbody] at hl
    exact .map Answer.completion (.refl hl)
  · cases hn

/-- The call of a class with an initializer. -/
theorem apply_initializes {k : ClassValue} {c : Closure} (hm : k.findMethod? initName = some c)
    (args : List Value) :
    apply h (fuel + 1) depth (.ofClass k) args s =
      (bindMethod c ⟨s.objects.size, k⟩ >>= fun initializer =>
        invoke h fuel depth initializer args >>= fun _ =>
          pure (.object ⟨s.objects.size, k⟩) : Action Value)
        { s with objects := s.objects.push .empty } := by
  have hnew : newObject k s =
      .done ⟨s.objects.size, k⟩ { s with objects := s.objects.push .empty } := rfl
  rw [apply]
  refine (Action.bind_of_done hnew).trans ?_
  rw [hm]

/-- Where a variable is read. -/
def Moment.ReadsVariable : Moment → Prop
  | run (.expr (.var _)) _ _ _ _ => True
  | _ => False

/-- What a moment leads to has ended when the moment has. -/
theorem Calls.ended (hc : Calls h m m') (hv : ¬m'.ReadsVariable) (hl : m.leaves? h = some s') :
    ∃ s₁, m'.leaves? h = some s₁ ∧ s₁.fresh ≤ s'.fresh := by
  cases hc with
  | @part n n' fuel depth i chain s s₁ hs hn =>
    cases n with
    | expr e => exact ended_expr hs hn (by rwa [Moment.leaves?, Node.run, Outcome.store?_map] at hl)
    | exprs es =>
      exact ended_exprs hs hn (by rwa [Moment.leaves?, Node.run, Outcome.store?_map] at hl)
    | stmt st =>
      refine ended_stmt hs hn (fun r hr => hv ?_)
        (by rwa [Moment.leaves?, Node.run, Outcome.store?_map] at hl)
      rw [hr]
      trivial
    | stmts sts =>
      exact ended_stmts hs hn (by rwa [Moment.leaves?, Node.run, Outcome.store?_map] at hl)
    | loop condition body =>
      exact ended_loop hs hn (by rwa [Moment.leaves?, Node.run, Outcome.store?_map] at hl)
    | function | method => cases hn
  | @block body fuel depth chain s =>
    rw [Moment.leaves?, Node.run, execute, Outcome.store?_map] at hl
    exact EndedBy.map Answer.completion (.refl hl)
  | @get object field fuel depth chain s s₁ o c ho hf hm =>
    rw [Moment.leaves?, Node.run, evaluate, Outcome.store?_map, Action.bind_of_done ho] at hl
    change (getProperty o field s₁).store? = some s' at hl
    unfold getProperty at hl
    rw [hf, hm] at hl
    exact Grows.first (fun _ => grows_pure _) hl
  | super ht hk ho hm =>
    rw [Moment.leaves?, Node.run, Outcome.store?_map, evaluate_super ht hk ho, hm] at hl
    exact Grows.first (fun _ => grows_pure _) hl
  | @call callee args paren fuel depth chain s s₁ s₂ f vs hf ha harity hd =>
    rw [Moment.leaves?, Node.run, evaluate, Outcome.store?_map, Action.bind_of_done hf,
      Action.bind_of_done ha] at hl
    rw [harity] at hl
    have hlen : ¬vs.length ≠ vs.length := fun hne => hne rfl
    refine EndedBy.refl (Eq.trans (Eq.symm ?_) hl)
    exact congrArg Outcome.store?
      ((Action.ite_of_not hlen).trans (Action.ite_of_not (Nat.not_le.mpr hd)))
  | closure =>
    rw [Moment.leaves?, apply] at hl
    exact EndedBy.refl hl
  | construct hm =>
    rw [Moment.leaves?, apply_initializes hm] at hl
    exact Grows.first (fun _ => (grows_invoke _ _).bind fun _ => grows_pure _) hl
  | initializer hm hb =>
    rw [Moment.leaves?, apply_initializes hm, Action.bind_of_done hb] at hl
    exact Grows.first (fun _ => grows_pure _) hl
  | body =>
    rw [Moment.leaves?, invoke, Action.bind_of_done (newFrame_done _ _)] at hl
    refine EndedBy.map Answer.completion (Grows.first (fun _ => ?_) hl)
    refine grows_ite (Grows.bind (fun _ _ hs => ?_) fun _ => grows_access _) (grows_pure _)
    cases hs
    exact Nat.le_refl _

end Ending

/-! ## One after the other -/

/-- A moment has ended when another begins. -/
def Moment.Precedes (h : Host) (m m' : Moment) : Prop :=
  ∃ s, m.leaves? h = some s ∧ s.fresh ≤ m'.store.fresh

/-- What is around a moment has ended when what is around another begins. -/
inductive Moment.Before (h : Host) : Moment → Moment → Prop
  | mk {a b m m' : Moment} (hm : Relation.ReflTransGen (Calls h) a m)
      (hm' : Relation.ReflTransGen (Calls h) b m') (hab : a.Precedes h b) : Before h m m'

section Order

variable {h : Host} {n n' : Node Link} {fuel depth i j : Nat} {chain : Chain}
  {s s₁ s₂ : Store} {m a b d d' : Moment}

theorem Next.fresh_le {x y : Nat × Store} (hn : Next h n fuel depth chain x y) :
    x.2.fresh ≤ y.2.fresh := by
  obtain ⟨-, hr, -⟩ := hn
  exact grows_run _ _ _ (by rw [hr]; rfl)

/-- A part has ended when a later one begins. -/
theorem precedes_of_next (hi : n.part i = some n')
    (hnext : Relation.TransGen (Next h n fuel depth chain) (i, s₁) (j, s₂)) (n₂ : Node Link) :
    (Moment.run n' fuel depth chain s₁).Precedes h (.run n₂ fuel depth chain s₂) := by
  obtain ⟨⟨k, s⟩, hfirst, hrest⟩ := Relation.TransGen.head'_iff.mp hnext
  have hle : s.fresh ≤ s₂.fresh := by
    generalize hx : (k, s) = x, hy : (j, s₂) = y at hrest
    have hxy : x.2.fresh ≤ y.2.fresh := by
      clear hx hy
      induction hrest with
      | refl => exact Nat.le_refl _
      | tail _ hstep ih => exact Nat.le_trans ih hstep.fresh_le
    rwa [← hx, ← hy] at hxy
  obtain ⟨hn, hr, -⟩ := hfirst
  obtain rfl := Option.some.inj (hi.symm.trans hn)
  exact ⟨s, by rw [Moment.leaves?, hr]; rfl, hle⟩

theorem Calls.precedes_bind {object : Expr Link} {field : Name} {o : Object} {c : Closure}
    (hs : Stage h (.expr (.get object field)) fuel depth chain s i s₁)
    (hn : (Node.expr (.get object field)).part i = some n')
    (ho : evaluate h fuel depth chain object s = .done (.object o) s₂) :
    (Moment.run n' fuel depth chain s₁).Precedes h (.bind c o s₂) := by
  rcases i with - | i
  · obtain rfl := hs.zero
    cases hn
    exact ⟨s₂, by rw [Moment.leaves?, Node.run, ho]; rfl, Nat.le_refl _⟩
  · cases hn

theorem Calls.precedes_apply {callee : Expr Link} {args : List (Expr Link)} {paren : Pos}
    {f : Value} {vs : List Value} {s₃ : Store}
    (hs : Stage h (.expr (.call callee args paren)) fuel depth chain s i s₁)
    (hn : (Node.expr (.call callee args paren)).part i = some n')
    (hf : evaluate h fuel depth chain callee s = .done f s₂)
    (ha : evaluateAll h fuel depth chain args s₂ = .done vs s₃) :
    (Moment.run n' fuel depth chain s₁).Precedes h (.apply f vs fuel (depth + 1) s₃) := by
  rcases i with - | - | i
  · obtain rfl := hs.zero
    cases hn
    refine ⟨s₂, by rw [Moment.leaves?, Node.run, hf]; rfl, ?_⟩
    exact grows_evaluateAll _ _ _ (by rw [ha]; rfl)
  · obtain ⟨v, hv, -⟩ := hs.behind_expr rfl
    cases hn
    cases hf.symm.trans hv
    exact ⟨s₃, by rw [Moment.leaves?, Node.run, ha]; rfl, Nat.le_refl _⟩
  · cases hn

/-- Of two moments that a moment leads to, one has ended when the other begins. -/
theorem Calls.siblings (ha : Calls h m a) (hb : Calls h m b) :
    a = b ∨ a.Precedes h b ∨ b.Precedes h a := by
  cases ha with
  | part hs hn =>
    cases hb with
    | part hs' hn' =>
      rcases hs.compare hs' with heq | hlt | hgt
      · obtain ⟨rfl, rfl⟩ := Prod.mk.inj heq
        obtain rfl := Option.some.inj (hn.symm.trans hn')
        exact .inl rfl
      · exact .inr (.inl (precedes_of_next hn hlt _))
      · exact .inr (.inr (precedes_of_next hn' hgt _))
    | block => cases hn
    | get ho => exact .inr (.inl (Calls.precedes_bind hs hn ho))
    | super => cases hn
    | call hf hvs => exact .inr (.inl (Calls.precedes_apply hs hn hf hvs))
  | block =>
    cases hb with
    | part _ hn => cases hn
    | block => exact .inl rfl
  | get ho hf hc =>
    cases hb with
    | part hs hn => exact .inr (.inr (Calls.precedes_bind hs hn ho))
    | get ho' hf' hc' =>
      cases ho.symm.trans ho'
      cases hc.symm.trans hc'
      exact .inl rfl
  | super ht hk ho hc =>
    cases hb with
    | part _ hn => cases hn
    | super ht' hk' ho' hc' =>
      cases ht.symm.trans ht'
      cases hk.symm.trans hk'
      cases ho.symm.trans ho'
      cases hc.symm.trans hc'
      exact .inl rfl
  | call hf hvs =>
    cases hb with
    | part hs hn => exact .inr (.inr (Calls.precedes_apply hs hn hf hvs))
    | call hf' hvs' =>
      cases hf.symm.trans hf'
      cases hvs.symm.trans hvs'
      exact .inl rfl
  | closure =>
    cases hb with
    | closure => exact .inl rfl
  | construct hc =>
    cases hb with
    | construct hc' =>
      cases hc.symm.trans hc'
      exact .inl rfl
    | initializer hc' hb' =>
      cases hc.symm.trans hc'
      exact .inr (.inl ⟨_, by rw [Moment.leaves?, hb']; rfl, Nat.le_refl _⟩)
  | initializer hc hb' =>
    cases hb with
    | construct hc' =>
      cases hc.symm.trans hc'
      exact .inr (.inr ⟨_, by rw [Moment.leaves?, hb']; rfl, Nat.le_refl _⟩)
    | initializer hc' hb'' =>
      cases hc.symm.trans hc'
      cases hb'.symm.trans hb''
      exact .inl rfl
  | body =>
    cases hb with
    | body => exact .inl rfl

/-- **Of two moments that a moment leads to, one is around the other or comes before it.** -/
theorem Moment.compare (hd : Relation.ReflTransGen (Calls h) m d)
    (hd' : Relation.ReflTransGen (Calls h) m d') :
    Relation.ReflTransGen (Calls h) d d' ∨ Relation.ReflTransGen (Calls h) d' d ∨
      Moment.Before h d d' ∨ Moment.Before h d' d := by
  induction hd using Relation.ReflTransGen.head_induction_on with
  | refl => exact .inl hd'
  | head hc hrest ih =>
    rcases hd'.cases_head with rfl | ⟨b, hcb, hrest'⟩
    · exact .inr (.inl (hrest.head hc))
    · rcases hc.siblings hcb with rfl | hab | hba
      · exact ih hrest'
      · exact .inr (.inr (.inl ⟨hrest, hrest', hab⟩))
      · exact .inr (.inr (.inr ⟨hrest', hrest, hba⟩))

end Order

/-! ## Identities of classes -/

section Identities

variable {h : Host} {m m' a d d' : Moment} {body body' : List (Function Link)} {k k' : ClassValue}
  {s' : Store}

theorem fresh_le_of_calls (hm : Relation.ReflTransGen (Calls h) a d) :
    a.store.fresh ≤ d.store.fresh := by
  induction hm with
  | refl => exact Nat.le_refl _
  | tail _ hc ih => exact Nat.le_trans ih hc.fresh_le

/-- A moment that leads to another one reads no variable. -/
theorem Calls.not_readsVariable (hc : Calls h m m') : ¬m.ReadsVariable := by
  cases hc with
  | @part n _ _ i _ _ _ _ hs hn =>
    intro hv
    unfold Moment.ReadsVariable at hv
    split at hv
    next heq =>
      cases heq
      cases hn
    next => exact hv
  | block | get | super | call | closure | construct | initializer | body => exact id

theorem Makes.not_readsVariable (hm : Makes h m body k) : ¬m.ReadsVariable := by
  cases hm
  exact id

/-- What has ended has given out the identities of the classes that were made in it. -/
theorem Makes.id_lt (hk : Makes h d body k) (hm : Relation.ReflTransGen (Calls h) a d)
    (hl : a.leaves? h = some s') : k.id < s'.fresh := by
  induction hm using Relation.ReflTransGen.head_induction_on generalizing s' with
  | refl =>
    obtain ⟨-, s, hs, hfresh⟩ := hk.leaves
    cases hl.symm.trans hs
    rw [hfresh]
    exact Nat.lt_succ_self _
  | @head a b hc hrest ih =>
    have hv : ¬b.ReadsVariable := by
      rcases hrest.cases_head with rfl | ⟨b', hcb, -⟩
      · exact hk.not_readsVariable
      · exact hcb.not_readsVariable
    obtain ⟨s₁, hs₁, hle⟩ := hc.ended hv hl
    exact Nat.lt_of_lt_of_le (ih hs₁) hle

theorem Makes.le_id (hk : Makes h d body k) (hm : Relation.ReflTransGen (Calls h) a d) :
    a.store.fresh ≤ k.id :=
  Nat.le_trans (fresh_le_of_calls hm) hk.leaves.1

/-- A class that is made before another one has a lesser identity. -/
theorem Moment.Before.id_lt (hb : Moment.Before h d d') (hk : Makes h d body k)
    (hk' : Makes h d' body' k') : k.id < k'.id := by
  obtain ⟨hm, hm', s, hs, hle⟩ := hb
  exact Nat.lt_of_lt_of_le (hk.id_lt hm hs) (Nat.le_trans hle (hk'.le_id hm'))

/-- A declaration of a class leads to no other declaration. -/
theorem Makes.eq_of_calls (hk : Makes h d body k) (hk' : Makes h d' body' k')
    (hm : Relation.ReflTransGen (Calls h) d d') : d = d' := by
  rcases hm.cases_head with heq | ⟨b, hc, hrest⟩
  · exact heq
  · have hv : b.ReadsVariable := by
      cases hk with
      | @mk name superclass =>
        cases hc with
        | @part _ n' _ _ i _ _ _ hs hn =>
          cases superclass with
          | none => cases hn
          | some r =>
            rcases i with - | i
            · cases hn
              trivial
            · cases hn
    rcases hrest.cases_head with rfl | ⟨b', hc', -⟩
    · exact absurd hv hk'.not_readsVariable
    · exact absurd hv hc'.not_readsVariable

/-- **No two declarations give out the same identity.** -/
theorem Makes.of_id_eq (hk : Makes h d body k) (hk' : Makes h d' body' k')
    (hm : Relation.ReflTransGen (Calls h) m d) (hm' : Relation.ReflTransGen (Calls h) m d')
    (hid : k.id = k'.id) : k = k' := by
  -- neither declaration is around the other, so one comes before the other or they are the same
  rcases Moment.compare hm hm' with hin | hin | hb | hb
  · obtain rfl := hk.eq_of_calls hk' hin
    exact hk.unique hk'
  · obtain rfl := hk'.eq_of_calls hk hin
    exact hk.unique hk'
  · exact absurd hid (Nat.ne_of_lt (hb.id_lt hk hk'))
  · exact absurd hid.symm (Nat.ne_of_lt (hb.id_lt hk' hk))

end Identities

end LoxKit
