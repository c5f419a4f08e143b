import LoxKit.Proofs.Machine.Raising
import LoxKit.Proofs.Machine.Trace

/-!
# What a return ends

The moments of one activation are those that its body leads to without another call in between. A
statement among them that does not carry on ends all that is around it as it ends itself, up to the
call. So a return that is reached is the last that the activation comes to, and its value is the
value of the call; a call that reaches none gives nil.

Headlines:
* `Inside`, `Later`: the moments of an activation, and which of them come after which.
* `Inside.compare`: of two moments of an activation one is around the other or comes after it.
* `Inside.ends`: what is around a statement that does not carry on ends as it does.
* **`unwinds_invoke`**: what a call comes to.
-/

namespace LoxKit

open LoxKit.Action
open Raising (carriesOn_pure carriesOn_bind carriesOn_function carriesOn_classDecl)

/-! ## Activations -/

/-- Whether it is a node that begins to run. -/
def Moment.IsRun : Moment → Prop
  | run .. => True
  | apply .. | invoke .. | bind .. => False

/-- A moment leads to another without a call in between. -/
def Inside (h : Host) : Moment → Moment → Prop :=
  Relation.ReflTransGen fun m m' => Calls h m m' ∧ m.IsRun ∧ m'.IsRun

/-- When a part of a node has ended, another one begins. Both come with the stores that they find. -/
inductive Next (h : Host) (n : Node Link) (fuel depth : Nat) (chain : Chain) :
    Nat × Store → Nat × Store → Prop
  | mk {i j : Nat} {n' : Node Link} {r : Answer} {s₁ s₂ : Store} (hn : n.part i = some n')
      (hr : n'.run h fuel depth chain s₁ = .done r s₂) (hj : n.next? i r = some j) :
      Next h n fuel depth chain (i, s₁) (j, s₂)

/-- One moment comes after another in the same activation: there is a node around both, and its part
with the later one begins when its part with the earlier one has ended. -/
inductive Later (h : Host) : Moment → Moment → Prop
  | mk {n n₁ n₂ : Node Link} {fuel depth i j : Nat} {chain : Chain} {s s₁ s₂ : Store}
      {m m' : Moment} (hs : Stage h n fuel depth chain s i s₁) (hi : n.part i = some n₁)
      (hm : Inside h (.run n₁ fuel depth chain s₁) m)
      (hnext : Relation.TransGen (Next h n fuel depth chain) (i, s₁) (j, s₂))
      (hj : n.part j = some n₂) (hm' : Inside h (.run n₂ fuel depth chain s₂) m') : Later h m m'

/-- Whether a return begins. -/
def Moment.IsReturn : Moment → Prop
  | run (.stmt (.giveBack _ _)) _ _ _ _ => True
  | _ => False

/-- A return gives a value and leaves a store. -/
inductive Moment.Returns (h : Host) : Moment → Value → Store → Prop
  | bare {keyword : Pos} {fuel depth : Nat} {chain : Chain} {s : Store} :
      Returns h (.run (.stmt (.giveBack keyword none)) (fuel + 1) depth chain s) .nil s
  | value {keyword : Pos} {e : Expr Link} {fuel depth : Nat} {chain : Chain} {s s' : Store} {v : Value}
      (hv : evaluate h fuel depth chain e s = .done v s') :
      Returns h (.run (.stmt (.giveBack keyword (some e))) (fuel + 1) depth chain s) v s'

/-- The body of a function begins. -/
def Moment.body (c : Closure) (args : List Value) (fuel depth : Nat) (s : Store) : Moment :=
  .run (.stmts c.function.body) fuel depth (s.frames.size :: c.captured)
    { s with frames := s.frames.push (parameterFrame c.function.params args) }

/-! ## The order in an activation -/

section Order

variable {h : Host} {n n' : Node Link} {fuel depth i j : Nat} {chain : Chain}
  {s s₁ s₂ : Store} {m m' m'' : Moment}

theorem Next.rightUnique : Relator.RightUnique (Next h n fuel depth chain) := by
  rintro a b c ⟨hn, hr, hj⟩ ⟨hn', hr', hj'⟩
  obtain rfl := Option.some.inj (hn.symm.trans hn')
  obtain ⟨rfl, rfl⟩ := Outcome.done.inj (hr.symm.trans hr')
  obtain rfl := Option.some.inj (hj.symm.trans hj')
  rfl

theorem Stage.next_refl (hs : Stage h n fuel depth chain s i s₁) :
    Relation.ReflTransGen (Next h n fuel depth chain) (0, s) (i, s₁) := by
  induction hs with
  | first => exact .refl
  | next _ hn hr hj ih => exact ih.tail ⟨hn, hr, hj⟩

/-- Of two parts that begin one begins when the other has ended. -/
theorem Stage.compare (hi : Stage h n fuel depth chain s i s₁)
    (hj : Stage h n fuel depth chain s j s₂) :
    (i, s₁) = (j, s₂) ∨ Relation.TransGen (Next h n fuel depth chain) (i, s₁) (j, s₂) ∨
      Relation.TransGen (Next h n fuel depth chain) (j, s₂) (i, s₁) := by
  rcases Relation.ReflTransGen.total_of_right_unique Next.rightUnique hi.next_refl hj.next_refl with
    hij | hji
  · rcases Relation.reflTransGen_iff_eq_or_transGen.mp hij with heq | hij
    · exact .inl heq.symm
    · exact .inr (.inl hij)
  · rcases Relation.reflTransGen_iff_eq_or_transGen.mp hji with heq | hji
    · exact .inl heq
    · exact .inr (.inr hji)

/-- A node that has begun leads to a part, or to the statements of a block. -/
theorem Calls.compare {m₁ m₂ : Moment} (h₁ : Calls h m m₁) (hr₁ : m₁.IsRun) (h₂ : Calls h m m₂)
    (hr₂ : m₂.IsRun) (hm : m.IsRun) (hm' : Inside h m₁ m') (hm'' : Inside h m₂ m'') :
    m₁ = m₂ ∨ Later h m' m'' ∨ Later h m'' m' := by
  cases h₁ with
  | part hs hn =>
    cases h₂ with
    | part hs' hn' =>
      rcases hs.compare hs' with heq | hlt | hgt
      · obtain ⟨rfl, rfl⟩ := Prod.mk.inj heq
        obtain rfl := Option.some.inj (hn.symm.trans hn')
        exact .inl rfl
      · exact .inr (.inl ⟨hs, hn, hm', hlt, hn', hm''⟩)
      · exact .inr (.inr ⟨hs', hn', hm'', hgt, hn, hm'⟩)
    | block => cases hn
    | get | super | call => exact hr₂.elim
  | block =>
    cases h₂ with
    | part _ hn' => cases hn'
    | block => exact .inl rfl
  | get | super | call => exact hr₁.elim
  | closure | construct | initializer | body => exact hm.elim

/-- Of two moments of an activation one is around the other or comes after it. -/
theorem Inside.compare (hm' : Inside h m m') (hm'' : Inside h m m'') :
    Inside h m' m'' ∨ Inside h m'' m' ∨ Later h m' m'' ∨ Later h m'' m' := by
  induction hm' using Relation.ReflTransGen.head_induction_on with
  | refl => exact .inl hm''
  | head hc hin ih =>
    rcases hm''.cases_head with rfl | ⟨m₂, hc₂, hin₂⟩
    · exact .inr (.inl (hin.head hc))
    · rcases hc.1.compare hc.2.2 hc₂.1 hc₂.2.2 hc.2.1 hin hin₂ with rfl | hlater
      · exact ih hin₂
      · exact .inr (.inr hlater)

end Order

/-! ## Handing on -/

/-- How what begins in a moment ends. -/
def Moment.ends (h : Host) : Moment → Outcome Answer
  | run n fuel depth chain s => n.run h fuel depth chain s
  | apply f args fuel depth s => (LoxKit.apply h fuel depth f args s).map .value
  | invoke c args fuel depth s => (LoxKit.invoke h fuel depth c args s).map .value
  | bind c o s => (bindMethod c o s).map fun c => .value (.closure c)

/-- Whether a statement begins, or statements in a row, or a round of a loop. -/
def Moment.IsStatement : Moment → Prop
  | run n .. => n.computes = false
  | apply .. | invoke .. | bind .. => False

/-- Whether a statement has been executed and the next one follows. -/
def Outcome.CarriesOn (o : Outcome Answer) : Prop :=
  ∃ s, o = .done (.completion .carryOn) s

section Handing

variable {h : Host} {n n' : Node Link} {fuel depth i j : Nat} {chain : Chain}
  {s s' : Store} {m m' : Moment}

/-- Parts follow each other in the order of their numbers. -/
theorem Node.next?_lt {r : Answer} (hj : n.next? i r = some j) : i < j := by
  unfold Node.next? at hj
  split at hj
  case h_11 => cases hj
  all_goals
    first
    | cases hj; omega
    | split at hj <;> cases hj <;> omega

theorem Stage.zero (hs : Stage h n fuel depth chain s 0 s') : s' = s := by
  cases hs with
  | first => rfl
  | next _ _ _ hj => exact absurd (Node.next?_lt hj) (Nat.not_lt_zero _)

/-- The second part begins behind the first. -/
theorem Stage.one (hs : Stage h n fuel depth chain s 1 s') :
    ∃ n' r, n.part 0 = some n' ∧ n'.run h fuel depth chain s = .done r s' ∧ n.next? 0 r = some 1 := by
  cases hs with
  | next hi hn hr hj =>
    obtain rfl := Nat.lt_one_iff.mp (Node.next?_lt hj)
    obtain rfl := hi.zero
    exact ⟨_, _, hn, hr, hj⟩

theorem Node.computes_part (hn : n.part i = some n') (hc : n.computes = true) :
    n'.computes = true := by
  cases n with
  | expr e =>
    simp only [Node.part] at hn
    unfold Node.exprPart at hn
    split at hn <;> cases hn <;> rfl
  | exprs es =>
    rcases es with - | ⟨e, es⟩
    · cases hn
    · rcases i with - | - | i <;> cases hn <;> rfl
  | stmt | stmts | loop | function | method => cases hc

theorem Outcome.map_eq_done {α β : Type} {f : α → β} {o : Outcome α} {b : β}
    (hd : o.map f = .done b s) : ∃ a, b = f a ∧ o = .done a s := by
  cases o with
  | done a s' =>
    cases hd
    exact ⟨a, rfl, rfl⟩
  | failed | broken | unfinished => cases hd

theorem Node.run_expr_eq {e : Expr Link} {r : Answer}
    (hr : (Node.expr e).run h fuel depth chain s = .done r s') :
    ∃ v, r = .value v ∧ evaluate h fuel depth chain e s = .done v s' :=
  Outcome.map_eq_done hr

theorem Node.run_stmt_eq {st : Stmt Link} {r : Answer}
    (hr : (Node.stmt st).run h fuel depth chain s = .done r s') :
    ∃ c, r = .completion c ∧ execute h fuel depth chain st s = .done c s' :=
  Outcome.map_eq_done hr

/-- What follows a statement that does not carry on does not run. -/
theorem Action.bind_of_not_carriesOn {a : Action Completion} (k : Action Completion)
    (ha : ¬((a s).map Answer.completion).CarriesOn) : ((a >>= fun c =>
      match c with
      | .carryOn => k
      | .returned v => pure (.returned v)) s) = a s := by
  show Action.bind a _ s = _
  unfold Action.bind
  cases hd : a s with
  | done c s' =>
    cases c with
    | carryOn => exact absurd ⟨s', by rw [hd]; rfl⟩ ha
    | returned v => rfl
  | failed | broken | unfinished => rfl

theorem Action.ite_of {α : Type} {c : Prop} [Decidable c] {a b : Action α} (hc : c) :
    (if c then a else b) s = a s := by
  rw [if_pos hc]

theorem Action.ite_of_not {α : Type} {c : Prop} [Decidable c] {a b : Action α} (hc : ¬c) :
    (if c then a else b) s = b s := by
  rw [if_neg hc]

/-- What comes behind an expression: the second operand, or a statement behind a condition. -/
theorem Stage.behind_expr {e : Expr Link} (hs : Stage h n fuel depth chain s 1 s')
    (hn : n.part 0 = some (.expr e)) :
    ∃ v, evaluate h fuel depth chain e s = .done v s' ∧ n.next? 0 (.value v) = some 1 := by
  obtain ⟨n', r, hn', hr, hj⟩ := hs.one
  obtain rfl := Option.some.inj (hn.symm.trans hn')
  obtain ⟨v, rfl, hv⟩ := Node.run_expr_eq hr
  exact ⟨v, hv, hj⟩

/-- What comes behind a statement: the others in the row. -/
theorem Stage.behind_stmt {st : Stmt Link} {sts : List (Stmt Link)}
    (hs : Stage h (.stmts (st :: sts)) fuel depth chain s 1 s') :
    execute h fuel depth chain st s = .done .carryOn s' := by
  obtain ⟨n', r, hn', hr, hj⟩ := hs.one
  cases hn'
  obtain ⟨c, rfl, hc⟩ := Node.run_stmt_eq hr
  cases c with
  | carryOn => exact hc
  | returned v => cases hj

/-- The condition of a branch that chooses its second statement. -/
theorem Stage.condition_else {condition : Expr Link} {thenPart elsePart : Stmt Link}
    (hs : Stage h (.stmt (.ifElse condition thenPart elsePart)) fuel depth chain s 2 s') :
    ∃ v, evaluate h fuel depth chain condition s = .done v s' ∧ ¬v.truthy = true := by
  cases hs with
  | @next i _ n' r s₁ _ hi hn hr hj =>
    rcases i with - | - | i
    · obtain rfl := hi.zero
      cases hn
      obtain ⟨v, rfl, hv⟩ := Node.run_expr_eq hr
      refine ⟨v, hv, fun htrue => ?_⟩
      simp only [Node.next?, if_pos htrue, Option.some.injEq] at hj
      exact absurd hj (by decide)
    · cases hn
      obtain ⟨c, rfl, -⟩ := Node.run_stmt_eq hr
      cases hj
    · exact absurd (Node.next?_lt hj) (by omega)

/-- A round of a loop comes to the next one when the condition holds and the body carries on. -/
theorem Stage.round {condition : Expr Link} {body : Stmt Link}
    (hs : Stage h (.loop condition body) fuel depth chain s 2 s') :
    ∃ s₁, Stage h (.loop condition body) fuel depth chain s 1 s₁ ∧
      execute h fuel depth chain body s₁ = .done .carryOn s' := by
  cases hs with
  | @next i _ n' r s₁ _ hi hn hr hj =>
    rcases i with - | - | i
    · cases hn
      obtain ⟨v, rfl, -⟩ := Node.run_expr_eq hr
      simp only [Node.next?] at hj
      split at hj <;> cases hj
    · cases hn
      obtain ⟨c, rfl, hc⟩ := Node.run_stmt_eq hr
      cases c with
      | carryOn => exact ⟨s₁, hi, hc⟩
      | returned v => cases hj
    · exact absurd (Node.next?_lt hj) (by omega)

/-- A branch ends as the statement that it chooses, and a loop statement as its loop. -/
theorem ends_stmt {st : Stmt Link} (hs : Stage h (.stmt st) fuel depth chain s i s')
    (hn : (Node.stmt st).part i = some n') (hc : n'.computes = false) :
    (Node.stmt st).run h (fuel + 1) depth chain s = n'.run h fuel depth chain s' := by
  simp only [Node.part] at hn
  unfold Node.stmtPart at hn
  split at hn <;> cases hn <;> try cases hc
  case h_5 condition thenPart =>
    obtain ⟨v, hv, hj⟩ := hs.behind_expr rfl
    simp only [Node.next?] at hj
    split at hj
    next htrue =>
      simp only [Node.run]
      rw [execute, Action.bind_of_done hv]
      exact congrArg _ (Action.ite_of htrue)
    next => cases hj
  case h_7 condition thenPart elsePart =>
    obtain ⟨v, hv, hj⟩ := hs.behind_expr rfl
    simp only [Node.next?] at hj
    split at hj
    next htrue =>
      simp only [Node.run]
      rw [execute, Action.bind_of_done hv]
      exact congrArg _ (Action.ite_of htrue)
    next => cases hj
  case h_8 condition thenPart elsePart =>
    obtain ⟨v, hv, hfalse⟩ := hs.condition_else
    simp only [Node.run]
    rw [execute, Action.bind_of_done hv]
    exact congrArg _ (Action.ite_of_not hfalse)
  case h_9 condition body =>
    obtain rfl := hs.zero
    simp only [Node.run]
    rw [execute]

/-- Statements in a row end as the one of them that does not carry on. -/
theorem ends_stmts {sts : List (Stmt Link)} (hs : Stage h (.stmts sts) fuel depth chain s i s')
    (hn : (Node.stmts sts).part i = some n')
    (hstop : ¬(n'.run h fuel depth chain s').CarriesOn) :
    (Node.stmts sts).run h (fuel + 1) depth chain s = n'.run h fuel depth chain s' := by
  rcases sts with - | ⟨st, sts⟩
  · cases hn
  rcases i with - | - | i
  · obtain rfl := hs.zero
    cases hn
    simp only [Node.run] at hstop ⊢
    rw [executeAll]
    exact congrArg _ (Action.bind_of_not_carriesOn _ hstop)
  · cases hn
    simp only [Node.run]
    rw [executeAll, Action.bind_of_done hs.behind_stmt]
  · cases hn

/-- A loop whose condition holds goes on with its body. -/
theorem Stage.repeats {condition : Expr Link} {body : Stmt Link} {s₁ : Store}
    (hs : Stage h (.loop condition body) fuel depth chain s 1 s₁) :
    repeatWhile h (fuel + 1) depth chain condition body s =
      (execute h fuel depth chain body >>= fun c => match c with
        | .carryOn => repeatWhile h fuel depth chain condition body
        | .returned v => pure (.returned v) : Action Completion) s₁ := by
  obtain ⟨v, hv, hj⟩ := hs.behind_expr rfl
  simp only [Node.next?] at hj
  split at hj
  next htrue =>
    rw [repeatWhile, Action.bind_of_done hv]
    exact Action.ite_of htrue
  next => cases hj

/-- A loop ends as its body or its next round, if they do not carry on. -/
theorem ends_loop {condition : Expr Link} {body : Stmt Link}
    (hs : Stage h (.loop condition body) fuel depth chain s i s')
    (hn : (Node.loop condition body).part i = some n') (hc : n'.computes = false)
    (hstop : ¬(n'.run h fuel depth chain s').CarriesOn) :
    (Node.loop condition body).run h (fuel + 1) depth chain s = n'.run h fuel depth chain s' := by
  rcases i with - | - | - | i
  · cases hn
    cases hc
  · cases hn
    simp only [Node.run] at hstop ⊢
    rw [hs.repeats]
    exact congrArg _ (Action.bind_of_not_carriesOn _ hstop)
  · obtain ⟨s₁, hs₁, hbody⟩ := hs.round
    cases hn
    simp only [Node.run]
    rw [hs₁.repeats, Action.bind_of_done hbody]
  · cases hn

/-- What leads to a statement without a call is a statement. -/
theorem Calls.statement (hcall : Calls h m m') (hm : m.IsRun) (hm' : m'.IsStatement) :
    m.IsStatement := by
  cases hcall with
  | @part n n' fuel depth i chain s s' hs hn =>
    cases hc : n.computes with
    | false => exact hc
    | true => exact absurd (Node.computes_part hn hc) (Bool.eq_false_iff.mp hm')
  | block => rfl
  | get | super | call => exact hm'.elim
  | closure | construct | initializer | body => exact hm.elim

/-- What leads to a statement that does not carry on ends as it does. -/
theorem Calls.ends (hcall : Calls h m m') (hm : m.IsRun) (hm' : m'.IsStatement)
    (hstop : ¬(m'.ends h).CarriesOn) : m.ends h = m'.ends h := by
  have hstatement := hcall.statement hm hm'
  cases hcall with
  | @part n n' fuel depth i chain s s' hs hn =>
    cases n with
    | expr | exprs => exact absurd hstatement (by simp [Moment.IsStatement, Node.computes])
    | stmt st => exact ends_stmt hs hn hm'
    | stmts sts => exact ends_stmts hs hn hstop
    | loop condition body => exact ends_loop hs hn hm' hstop
    | function | method => cases hn
  | block =>
    simp only [Moment.ends, Node.run]
    rw [execute]
    rfl
  | get | super | call => exact hm'.elim
  | closure | construct | initializer | body => exact hm.elim

/-- **What is around a statement that does not carry on ends as it does.** -/
theorem Inside.ends (hin : Inside h m m') (hm' : m'.IsStatement)
    (hstop : ¬(m'.ends h).CarriesOn) : m.IsStatement ∧ m.ends h = m'.ends h := by
  induction hin using Relation.ReflTransGen.head_induction_on with
  | refl => exact ⟨hm', rfl⟩
  | head hc _ ih =>
    obtain ⟨hstatement, heq⟩ := ih
    exact ⟨hc.1.statement hc.2.1 hstatement, (hc.1.ends hc.2.1 hstatement (heq ▸ hstop)).trans heq⟩

end Handing

/-! ## Returns that are reached -/

section Reaching

variable {h : Host} {fuel depth : Nat} {chain : Chain} {s s' : Store} {v : Value}

theorem Action.bind_eq_done {α β : Type} {a : Action α} {f : α → Action β} {y : β}
    (hd : (a >>= f) s = .done y s') : ∃ x s₁, a s = .done x s₁ ∧ f x s₁ = .done y s' := by
  change Action.bind a f s = _ at hd
  unfold Action.bind at hd
  cases ha : a s with
  | done x s₁ => exact ⟨x, s₁, rfl, by rwa [ha] at hd⟩
  | failed | broken | unfinished =>
    rw [ha] at hd
    cases hd

/-- A moment without a call in between leads to a return that gives the value and leaves the store. -/
def Moment.Reaches (h : Host) (m : Moment) (v : Value) (s' : Store) : Prop :=
  ∃ r, Inside h m r ∧ r.Returns h v s'

theorem Calls.reaches {m m' : Moment} (hc : Calls h m m') (hm : m.IsRun) (hm' : m'.IsRun)
    (hr : m'.Reaches h v s') : m.Reaches h v s' := by
  obtain ⟨r, hin, hret⟩ := hr
  exact ⟨r, hin.head ⟨hc, hm, hm'⟩, hret⟩

/-- With a number of steps, statements reach a return if they complete with a value. -/
structure Reaching (h : Host) (fuel : Nat) : Prop where
  stmt : ∀ {depth chain st s v s'}, execute h fuel depth chain st s = .done (.returned v) s' →
    Moment.Reaches h (.run (.stmt st) fuel depth chain s) v s'
  stmts : ∀ {depth chain sts s v s'}, executeAll h fuel depth chain sts s = .done (.returned v) s' →
    Moment.Reaches h (.run (.stmts sts) fuel depth chain s) v s'
  loop : ∀ {depth chain condition body s v s'},
    repeatWhile h fuel depth chain condition body s = .done (.returned v) s' →
    Moment.Reaches h (.run (.loop condition body) fuel depth chain s) v s'

theorem reaching_stmt (ih : Reaching h fuel) {st : Stmt Link}
    (hd : execute h (fuel + 1) depth chain st s = .done (.returned v) s') :
    Moment.Reaches h (.run (.stmt st) (fuel + 1) depth chain s) v s' := by
  cases st with
  | expression e =>
    rw [execute] at hd
    exact absurd hd (carriesOn_bind _ (fun _ => carriesOn_pure) s v s')
  | print e =>
    rw [execute] at hd
    exact absurd hd (carriesOn_bind _ (fun _ => carriesOn_bind _ fun _ => carriesOn_pure) s v s')
  | var name initializer =>
    cases initializer with
    | none =>
      rw [execute] at hd
      exact absurd hd (carriesOn_bind _ (fun _ => carriesOn_pure) s v s')
    | some e =>
      rw [execute] at hd
      exact absurd hd (carriesOn_bind _ (fun _ => carriesOn_bind _ fun _ => carriesOn_pure) s v s')
  | block body =>
    rw [execute] at hd
    exact Calls.block.reaches trivial trivial (ih.stmts hd)
  | ifThen condition thenPart =>
    rw [execute] at hd
    obtain ⟨c, s₁, hc, hd⟩ := Action.bind_eq_done hd
    by_cases htrue : c.truthy = true
    · replace hd := (Action.ite_of htrue).symm.trans hd
      have hj : Node.next? (.stmt (.ifThen condition thenPart)) 0 (.value c) = some 1 := if_pos htrue
      exact (Calls.part (.expr .first rfl hc hj) rfl).reaches trivial trivial (ih.stmt hd)
    · replace hd := (Action.ite_of_not htrue).symm.trans hd
      cases hd
  | ifElse condition thenPart elsePart =>
    rw [execute] at hd
    obtain ⟨c, s₁, hc, hd⟩ := Action.bind_eq_done hd
    by_cases htrue : c.truthy = true
    · replace hd := (Action.ite_of htrue).symm.trans hd
      have hj : Node.next? (.stmt (.ifElse condition thenPart elsePart)) 0 (.value c) = some 1 :=
        if_pos htrue
      exact (Calls.part (.expr .first rfl hc hj) rfl).reaches trivial trivial (ih.stmt hd)
    · replace hd := (Action.ite_of_not htrue).symm.trans hd
      have hj : Node.next? (.stmt (.ifElse condition thenPart elsePart)) 0 (.value c) = some 2 :=
        if_neg htrue
      exact (Calls.part (.expr .first rfl hc hj) rfl).reaches trivial trivial (ih.stmt hd)
  | whileDo condition body =>
    rw [execute] at hd
    exact (Calls.part .first rfl).reaches trivial trivial (ih.loop hd)
  | function f => exact absurd hd (carriesOn_function h fuel depth chain f s v s')
  | giveBack keyword value =>
    cases value with
    | none =>
      rw [execute] at hd
      cases hd
      exact ⟨_, .refl, .bare⟩
    | some e =>
      rw [execute] at hd
      obtain ⟨_, _, hv, hd⟩ := Action.bind_eq_done hd
      cases hd
      exact ⟨_, .refl, .value hv⟩
  | classDecl name superclass methods =>
    exact absurd hd (carriesOn_classDecl h fuel depth chain name superclass methods s v s')

theorem reaching_stmts (ih : Reaching h fuel) {sts : List (Stmt Link)}
    (hd : executeAll h (fuel + 1) depth chain sts s = .done (.returned v) s') :
    Moment.Reaches h (.run (.stmts sts) (fuel + 1) depth chain s) v s' := by
  cases sts with
  | nil =>
    rw [executeAll] at hd
    cases hd
  | cons st sts =>
    rw [executeAll] at hd
    obtain ⟨c, s₁, hc, hd⟩ := Action.bind_eq_done hd
    cases c with
    | carryOn =>
      exact (Calls.part (.stmt .first rfl hc rfl) rfl).reaches trivial trivial (ih.stmts hd)
    | returned w =>
      cases hd
      exact (Calls.part .first rfl).reaches trivial trivial (ih.stmt hc)

theorem reaching_loop (ih : Reaching h fuel) {condition : Expr Link} {body : Stmt Link}
    (hd : repeatWhile h (fuel + 1) depth chain condition body s = .done (.returned v) s') :
    Moment.Reaches h (.run (.loop condition body) (fuel + 1) depth chain s) v s' := by
  rw [repeatWhile] at hd
  obtain ⟨c, s₁, hc, hd⟩ := Action.bind_eq_done hd
  by_cases htrue : c.truthy = true
  · replace hd := (Action.ite_of htrue).symm.trans hd
    have hj : Node.next? (.loop condition body) 0 (.value c) = some 1 := if_pos htrue
    have hbody := Stage.expr .first rfl hc hj
    obtain ⟨d, s₂, hd₂, hd⟩ := Action.bind_eq_done hd
    cases d with
    | carryOn =>
      exact (Calls.part (.stmt hbody rfl hd₂ rfl) rfl).reaches trivial trivial (ih.loop hd)
    | returned w =>
      cases hd
      exact (Calls.part hbody rfl).reaches trivial trivial (ih.stmt hd₂)
  · replace hd := (Action.ite_of_not htrue).symm.trans hd
    cases hd

/-- Statements that complete with a value have come to a return. -/
theorem reaching (h : Host) (fuel : Nat) : Reaching h fuel := by
  induction fuel with
  | zero =>
    refine ⟨fun hd => ?_, fun hd => ?_, fun hd => ?_⟩
    · rw [execute] at hd
      cases hd
    · rw [executeAll] at hd
      cases hd
    · rw [repeatWhile] at hd
      cases hd
  | succ fuel ih => exact ⟨reaching_stmt ih, reaching_stmts ih, reaching_loop ih⟩

end Reaching

/-! ## Calls -/

section Calling

variable {h : Host} {m r : Moment} {v w : Value} {s s' s₁ : Store} {c : Closure} {args : List Value}
  {fuel depth : Nat}

namespace Moment

theorem Returns.isReturn (hr : r.Returns h v s') : r.IsReturn := by
  cases hr <;> trivial

theorem Returns.ends (hr : r.Returns h v s') : r.ends h = .done (.completion (.returned v)) s' := by
  cases hr with
  | bare =>
    simp only [Moment.ends, Node.run]
    rw [execute]
    rfl
  | value hv =>
    simp only [Moment.ends, Node.run]
    rw [execute, Action.bind_of_done hv]
    rfl

theorem IsReturn.eq_run (hr : r.IsReturn) : ∃ keyword value fuel depth chain s,
    r = .run (.stmt (.giveBack keyword value)) fuel depth chain s := by
  unfold IsReturn at hr
  split at hr
  · exact ⟨_, _, _, _, _, _, rfl⟩
  · exact hr.elim

theorem IsReturn.isStatement (hr : r.IsReturn) : r.IsStatement := by
  obtain ⟨_, _, _, _, _, _, rfl⟩ := hr.eq_run
  rfl

/-- A return that is done has given its value. -/
theorem IsReturn.returns (hr : r.IsReturn) {a : Answer} (hd : r.ends h = .done a s') :
    ∃ v, r.Returns h v s' ∧ a = .completion (.returned v) := by
  obtain ⟨keyword, value, fuel, depth, chain, s, rfl⟩ := hr.eq_run
  obtain ⟨completion, rfl, hdone⟩ := Node.run_stmt_eq hd
  rcases fuel with - | fuel
  · rw [execute] at hdone
    cases hdone
  · cases value with
    | none =>
      rw [execute] at hdone
      cases hdone
      exact ⟨_, .bare, rfl⟩
    | some e =>
      rw [execute] at hdone
      obtain ⟨v, s₁, hv, hdone⟩ := Action.bind_eq_done hdone
      cases hdone
      exact ⟨v, .value hv, rfl⟩

theorem IsReturn.not_carriesOn (hr : r.IsReturn) : ¬(r.ends h).CarriesOn := by
  rintro ⟨s', hd⟩
  obtain ⟨v, -, hv⟩ := hr.returns hd
  cases hv

end Moment

theorem Node.next?_returned (n : Node Link) (i : Nat) :
    n.next? i (.completion (.returned v)) = none := by
  unfold Node.next?
  split <;> first | rfl | (rename_i heq; cases heq)

/-- **Nothing comes after a return.** -/
theorem Moment.IsReturn.last (hr : r.IsReturn) : ¬Later h r m := by
  rintro ⟨_, hi, hin, hnext, _, _⟩
  obtain ⟨_, ⟨hn, hdone, hj⟩, -⟩ := Relation.TransGen.head'_iff.mp hnext
  obtain rfl := Option.some.inj (hi.symm.trans hn)
  have hends := (hin.ends hr.isStatement hr.not_carriesOn).2
  obtain ⟨v, -, rfl⟩ := hr.returns (hends.symm.trans hdone)
  rw [Node.next?_returned] at hj
  cases hj

/-- What a call comes to that ends with a value and leaves a store. -/
structure Unwinds (h : Host) (c : Closure) (args : List Value) (fuel depth : Nat) (s : Store)
    (v : Value) (s' : Store) : Prop where
  /-- A return that is reached gives the value; the other moments of the activation are around it, in
  it, or before it. -/
  reached : ∀ r, Inside h (.body c args fuel depth s) r → r.IsReturn →
    ∃ w, r.Returns h w s' ∧ (c.isInitializer = false → v = w) ∧
      ∀ m, Inside h (.body c args fuel depth s) m → Inside h m r ∨ Inside h r m ∨ Later h m r
  /-- If none is reached, the statements carry on to the end. -/
  unreached : (∀ r, Inside h (.body c args fuel depth s) r → ¬r.IsReturn) →
    (Moment.body c args fuel depth s).ends h = .done (.completion .carryOn) s' ∧
      (c.isInitializer = false → v = .nil)

/-- The statements of a call that ends have ended. -/
theorem invoke_eq_done (hd : invoke h (fuel + 1) depth c args s = .done v s') :
    ∃ completion, (Moment.body c args fuel depth s).ends h = .done (.completion completion) s' ∧
      (c.isInitializer = false → v = completion.value) ∧
      (c.isInitializer = true → s'.frames.getAt c.captured 0 Keyword.this.word = .ok v) := by
  rw [invoke] at hd
  obtain ⟨frame, s₁, hframe, hd⟩ := Action.bind_eq_done hd
  cases hframe
  obtain ⟨completion, s₂, hbody, hd⟩ := Action.bind_eq_done hd
  refine ⟨completion, ?_⟩
  cases hinit : c.isInitializer with
  | true =>
    rw [hinit] at hd
    obtain ⟨s₃, _, hread, hd⟩ := Action.bind_eq_done hd
    cases hread
    obtain ⟨hget, rfl⟩ := ofAccess_eq_done hd
    refine ⟨?_, fun hfalse => absurd hfalse (by decide), fun _ => hget⟩
    simp only [Moment.ends, Moment.body, Node.run]
    exact congrArg _ hbody
  | false =>
    rw [hinit] at hd
    cases hd
    refine ⟨?_, fun _ => rfl, fun htrue => absurd htrue (by decide)⟩
    simp only [Moment.ends, Moment.body, Node.run]
    exact congrArg _ hbody

/-- A return that is reached and gives its value ends the call with it. -/
theorem Moment.Returns.ends_invoke (hr : r.Returns h w s₁)
    (hin : Inside h (.body c args fuel depth s) r) (hinit : c.isInitializer = false) :
    LoxKit.invoke h (fuel + 1) depth c args s = .done w s₁ := by
  have hends := (hin.ends hr.isReturn.isStatement hr.isReturn.not_carriesOn).2.trans hr.ends
  obtain ⟨completion, hcompletion, hbody⟩ := Outcome.map_eq_done hends
  cases hcompletion
  rw [LoxKit.invoke, Action.bind_of_done (newFrame_done _ _), Action.bind_of_done hbody]
  simp only [hinit]
  rfl

/-- **What a call comes to.** -/
theorem unwinds_invoke (hd : invoke h (fuel + 1) depth c args s = .done v s') :
    Unwinds h c args fuel depth s v s' := by
  obtain ⟨completion, hbody, hv, -⟩ := invoke_eq_done hd
  refine ⟨fun r hin hr => ?_, fun hnone => ?_⟩
  · have hends := (hin.ends hr.isStatement hr.not_carriesOn).2
    obtain ⟨w, hret, hw⟩ := hr.returns (hends.symm.trans hbody)
    cases hw
    refine ⟨w, hret, hv, fun m hm => ?_⟩
    rcases hin.compare hm with hrm | hmr | hlater | hearlier
    · exact .inr (.inl hrm)
    · exact .inl hmr
    · exact absurd hlater hr.last
    · exact .inr (.inr hearlier)
  · cases completion with
    | carryOn => exact ⟨hbody, hv⟩
    | returned w =>
      obtain ⟨_, hcompletion, hdone⟩ := Outcome.map_eq_done hbody
      cases hcompletion
      obtain ⟨r, hin, hret⟩ := (reaching h fuel).stmts hdone
      exact absurd hret.isReturn (hnone r hin)

end Calling

end LoxKit
