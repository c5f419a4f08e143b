import LoxKit.Proofs.Alignment.ForStatement
import LoxKit.Proofs.Machine.Fuel

/-!
# Enough steps

Where the same is said in two ways, the one may take more steps than the other. What they come to
with enough steps is the same (`Runs.Agree`), and this is kept by sequences and by loops.

Headlines:
* `Runs.Agree`: the same with enough steps.
* `Runs.Agree.bind`, `Runs.Agree.rounds`: the rules for sequences and for loops.
* `execute_pair`, `execute_whileDo`: a block of two statements and a loop, without the steps that the
  statements around them take.
-/

namespace LoxKit

open Outcome LoxKit.Action Filter

theorem Action.andThen_pure (m : Action Completion) : m.andThen (pure .carryOn) = m := by
  refine (congrArg (Action.bind m) (funext fun c => ?_)).trans (bind_pure m)
  cases c <;> rfl

/-! ## Runs -/

/-- A run for each number of steps. -/
abbrev Runs (α : Type) :=
  Nat → Action α

namespace Runs

variable {α β : Type} {A A' A'' : Runs α} {F F' : Nat → α → Action β}

/-- More steps only go on where fewer were cut off. -/
def Growing (A : Runs α) : Prop :=
  ∀ s n k, n ≤ k → Below (A n s) (A k s)

/-- What the first run finishes with some steps, the second finishes with enough. -/
def Within (A B : Runs α) : Prop :=
  ∀ s n, ∀ᶠ k in atTop, Below (A n s) (B k s)

/-- Runs that come to the same with enough steps. -/
structure Agree (A B : Runs α) : Prop where
  forth : Within A B
  back : Within B A

theorem Growing.of_succ (h : ∀ s n, Below (A n s) (A (n + 1) s)) : Growing A := by
  intro s n k hk
  induction hk with
  | refl => exact .refl _
  | step _ ih => exact ih.trans (h s _)

theorem Growing.const (m : Action α) : Growing fun _ => m :=
  fun _ _ _ _ => .refl _

theorem Growing.bind (hA : Growing A) (hF : ∀ a, Growing fun n => F n a) :
    Growing fun n => A n >>= F n :=
  fun s n k hk => Below.bind (hA s n k hk) fun a t _ => hF a t n k hk

theorem Growing.within (hA : Growing A) : Within A A :=
  fun s n => (eventually_ge_atTop n).mono fun k hk => hA s n k hk

theorem Within.trans (h : Within A A') (h' : Within A' A'') : Within A A'' := by
  intro s n
  obtain ⟨m, hm⟩ := (h s n).exists
  exact (h' s m).mono fun k hk => hm.trans hk

/-- The rule for what begins in one store. -/
theorem eventually_bind {m : Action α} {f : α → Action β} {s : Store}
    (hm : ∀ᶠ k in atTop, Below (m s) (A k s))
    (hf : ∀ a t, ∀ᶠ k in atTop, Below (f a t) (F k a t)) :
    ∀ᶠ k in atTop, Below ((m >>= f) s) ((A k >>= F k) s) := by
  cases ho : m s with
  | done a t =>
    filter_upwards [hm, hf a t] with k hk hk'
    refine Below.bind hk fun b u hb => ?_
    cases ho.symm.trans hb
    exact hk'
  | failed | broken | unfinished =>
    exact hm.mono fun k hk => Below.bind hk fun b u hb => absurd (ho.symm.trans hb) (by simp)

theorem Within.bind (hA : Within A A') (hF : ∀ a, Within (fun n => F n a) fun n => F' n a) :
    Within (fun n => A n >>= F n) fun n => A' n >>= F' n :=
  fun s n => eventually_bind (hA s n) fun a t => hF a t n

/-- Nothing follows a return. -/
theorem eventually_andThen {A B : Runs Completion} {m next : Action Completion} {s : Store}
    (hm : ∀ᶠ k in atTop, Below (m s) (A k s))
    (hnext : ∀ t, ∀ᶠ k in atTop, Below (next t) (B k t)) :
    ∀ᶠ k in atTop, Below (m.andThen next s) ((A k).andThen (B k) s) := by
  refine eventually_bind hm fun c t => ?_
  cases c with
  | carryOn => exact hnext t
  | returned v => exact .of_forall fun k => .refl _

theorem Growing.andThen {A B : Runs Completion} (hA : Growing A) (hB : Growing B) :
    Growing fun n => (A n).andThen (B n) := by
  refine hA.bind fun c => ?_
  cases c with
  | carryOn => exact hB
  | returned v => exact .const _

theorem Agree.refl (hA : Growing A) : Agree A A :=
  ⟨hA.within, hA.within⟩

theorem Agree.of_eq {B : Runs α} (hB : Growing B) (h : ∀ n s, A n s = B n s) : Agree A B := by
  obtain rfl : A = B := funext fun n => funext (h n)
  exact .refl hB

theorem Agree.trans (h : Agree A A') (h' : Agree A' A'') : Agree A A'' :=
  ⟨h.forth.trans h'.forth, h'.back.trans h.back⟩

theorem Agree.bind (hA : Agree A A') (hF : ∀ a, Agree (fun n => F n a) fun n => F' n a) :
    Agree (fun n => A n >>= F n) fun n => A' n >>= F' n :=
  ⟨hA.forth.bind fun a => (hF a).forth, hA.back.bind fun a => (hF a).back⟩

theorem Agree.andThen {A A' B B' : Runs Completion} (hA : Agree A A') (hB : Agree B B') :
    Agree (fun n => (A n).andThen (B n)) fun n => (A' n).andThen (B' n) :=
  ⟨fun s n => eventually_andThen (hA.forth s n) fun t => hB.forth t n,
    fun s n => eventually_andThen (hA.back s n) fun t => hB.back t n⟩

/-- One step more or less makes no difference. -/
theorem Agree.of_step {B : Runs α} (hB : Growing B) (h₀ : ∀ s, A 0 s = .unfinished)
    (h : ∀ n s, A (n + 1) s = B n s) : Agree A B := by
  constructor
  · intro s n
    cases n with
    | zero => exact .of_forall fun k => Or.inl (h₀ s)
    | succ n =>
      rw [h]
      exact hB.within s n
  · intro s n
    refine (eventually_ge_atTop (n + 1)).mono fun k hk => ?_
    obtain ⟨k, rfl⟩ := Nat.exists_eq_add_of_le' hk
    show Below (B n s) (A (k + n + 1) s)
    rw [h]
    exact hB s n _ (Nat.le_add_left n k)

/-- With enough steps the outcomes are equal, or both are unfinished with any. -/
theorem Agree.eventually (h : Agree A A') (hA : Growing A) (hA' : Growing A') (s : Store) :
    ∀ᶠ k in atTop, A k s = A' k s := by
  -- if one of them finishes, the other does, and in the same way
  by_cases hn : ∃ n, A n s ≠ .unfinished
  · obtain ⟨n, hn⟩ := hn
    filter_upwards [h.forth s n, eventually_ge_atTop n] with k hk hle
    exact ((hA s n k hle).resolve_left hn).symm.trans (hk.resolve_left hn)
  · by_cases hn' : ∃ n, A' n s ≠ .unfinished
    · obtain ⟨n, hn'⟩ := hn'
      filter_upwards [h.back s n, eventually_ge_atTop n] with k hk hle
      exact (hk.resolve_left hn').symm.trans ((hA' s n k hle).resolve_left hn')
    · push Not at hn hn'
      exact .of_forall fun k => (hn k).trans (hn' k).symm

/-! ### Rounds -/

section Rounds

variable {condition condition' : Runs Value} {round round' : Runs Completion}

theorem rounds_below {c c' : Action Value} {r r' : Action Completion}
    (hc : ∀ s, Below (c s) (c' s)) (hr : ∀ s, Below (r s) (r' s)) {i j : Nat} (hij : i ≤ j)
    (s : Store) : Below (rounds c r i s) (rounds c' r' j s) := by
  induction i generalizing j s with
  | zero => exact Or.inl rfl
  | succ i ih =>
    obtain ⟨j, rfl⟩ := Nat.exists_eq_add_of_le' hij
    rw [rounds, ← Nat.add_assoc, rounds]
    refine Below.bind (hc s) fun v t _ => Below.ite ?_ (.refl _)
    refine Below.bind (hr t) fun c u _ => ?_
    cases c with
    | carryOn => exact ih (Nat.le_add_left i j) u
    | returned => exact .refl _

theorem Growing.rounds (hc : Growing condition) (hr : Growing round) :
    Growing fun n => rounds (condition n) (round n) n :=
  fun _ n k hk => rounds_below (fun s => hc s n k hk) (fun s => hr s n k hk) hk _

theorem Within.rounds (hc : Within condition condition') (hr : Within round round') :
    Within (fun n => rounds (condition n) (round n) n)
      fun n => rounds (condition' n) (round' n) n := by
  -- as many rounds at most on both sides, which then are allowed more on the right
  have hsame : ∀ n i s, ∀ᶠ k in atTop, Below (LoxKit.rounds (condition n) (round n) i s)
      (LoxKit.rounds (condition' k) (round' k) i s) := by
    intro n i
    induction i with
    | zero => exact fun s => .of_forall fun k => Or.inl rfl
    | succ i ih =>
      intro s
      simp only [LoxKit.rounds]
      refine eventually_bind (hc s n) fun v t => ?_
      split
      · exact eventually_andThen (hr t n) ih
      · exact .of_forall fun k => .refl _
  intro s n
  filter_upwards [hsame n n s, eventually_ge_atTop n] with k hk hle
  exact hk.trans (rounds_below (fun _ => .refl _) (fun _ => .refl _) hle s)

theorem Agree.rounds (hc : Agree condition condition') (hr : Agree round round') :
    Agree (fun n => rounds (condition n) (round n) n) fun n => rounds (condition' n) (round' n) n :=
  ⟨hc.forth.rounds hr.forth, hc.back.rounds hr.back⟩

end Rounds

end Runs

/-! ## Statements -/

section Statements

open Runs

variable {h : Host} {depth : Nat} {chain : Chain} {e condition : Expr Link} {st st' body : Stmt Link}
  {sts : List (Stmt Link)}

theorem evaluate_growing : Growing fun n => evaluate h n depth chain e :=
  .of_succ fun s n => (steady h n).evaluate depth chain e s

theorem execute_growing : Growing fun n => execute h n depth chain st :=
  .of_succ fun s n => (steady h n).execute depth chain st s

theorem executeAll_growing : Growing fun n => executeAll h n depth chain sts :=
  .of_succ fun s n => (steady h n).executeAll depth chain sts s

theorem repeatWhile_growing : Growing fun n => repeatWhile h n depth chain condition body :=
  .of_succ fun s n => (steady h n).repeatWhile depth chain condition body s

theorem executeAll_nil_agree :
    Agree (fun n => executeAll h n depth chain []) fun _ => pure .carryOn :=
  .of_step (.const _) (fun s => by rw [executeAll]) fun n s => by rw [executeAll]; rfl

theorem executeAll_cons_agree :
    Agree (fun n => executeAll h n depth chain (st :: sts))
      fun n => Action.andThen (execute h n depth chain st) (executeAll h n depth chain sts) := by
  refine .of_step (execute_growing.andThen executeAll_growing) (fun s => by rw [executeAll])
    fun n s => ?_
  rw [executeAll]
  refine congrFun (congrArg _ (funext fun c => ?_)) s
  cases c <;> rfl

theorem execute_expression_agree :
    Agree (fun n => execute h n depth chain (.expression e))
      fun n => (evaluate h n depth chain e : Action Value) >>= fun _ => pure .carryOn :=
  .of_step (evaluate_growing.bind fun _ => .const _) (fun s => by rw [execute])
    fun n s => by rw [execute]

theorem evaluate_literal_agree (value : Literal) (token : Token) :
    Agree (fun n => evaluate h n depth chain (.literal value token)) fun _ => pure value.toValue :=
  .of_step (.const _) (fun s => by rw [evaluate]) fun n s => by rw [evaluate]; rfl

/-- Two statements in order. -/
theorem executeAll_pair_agree :
    Agree (fun n => executeAll h n depth chain [st, st'])
      fun n => Action.andThen (execute h n depth chain st) (execute h n depth chain st') := by
  have hlast : Agree (fun n => executeAll h n depth chain [st'])
      fun n => execute h n depth chain st' :=
    (executeAll_cons_agree.trans ((Agree.refl execute_growing).andThen executeAll_nil_agree)).trans
      (.of_eq execute_growing fun n s => congrFun (Action.andThen_pure _) s)
  exact executeAll_cons_agree.trans ((Agree.refl execute_growing).andThen hlast)

/-- A block of two statements. -/
theorem execute_pair_agree :
    Agree (fun n => execute h n depth chain (.block [st, st']))
      fun n => newFrame .empty >>= fun frame =>
        Action.andThen (execute h n depth (frame :: chain) st)
          (execute h n depth (frame :: chain) st') := by
  have hblock : Agree (fun n => execute h n depth chain (.block [st, st']))
      fun n => newFrame .empty >>= fun frame => executeAll h n depth (frame :: chain) [st, st'] :=
    .of_step ((Growing.const _).bind fun _ => executeAll_growing) (fun s => by rw [execute])
      fun n s => by rw [execute]
  exact hblock.trans ((Agree.refl (.const _)).bind fun _ => executeAll_pair_agree)

theorem repeatWhile_below_rounds {n k : Nat} (hk : n ≤ k) (s : Store) :
    Below (repeatWhile h n depth chain condition body s)
      (rounds (evaluate h k depth chain condition) (execute h k depth chain body) n s) := by
  induction n generalizing s with
  | zero => exact Or.inl (by rw [repeatWhile])
  | succ n ih =>
    have hle := Nat.le_of_succ_le hk
    rw [repeatWhile]
    refine Below.bind (evaluate_growing s n k hle) fun v t _ => Below.ite ?_ (.refl _)
    refine Below.bind (execute_growing t n k hle) fun c u _ => ?_
    cases c with
    | carryOn => exact ih hle u
    | returned v => exact .refl _

theorem rounds_below_repeatWhile (n i : Nat) (s : Store) :
    Below (rounds (evaluate h n depth chain condition) (execute h n depth chain body) i s)
      (repeatWhile h (n + i) depth chain condition body s) := by
  induction i generalizing s with
  | zero => exact Or.inl rfl
  | succ i ih =>
    have hle := Nat.le_add_right n i
    rw [← Nat.add_assoc, repeatWhile]
    refine Below.bind (evaluate_growing s n _ hle) fun v t _ => Below.ite ?_ (.refl _)
    refine Below.bind (execute_growing t n _ hle) fun c u _ => ?_
    cases c with
    | carryOn => exact ih u
    | returned v => exact .refl _

/-- A loop goes round by round. -/
theorem execute_whileDo_agree :
    Agree (fun n => execute h n depth chain (.whileDo condition body))
      fun n => rounds (evaluate h n depth chain condition) (execute h n depth chain body) n := by
  have hloop : Agree (fun n => execute h n depth chain (.whileDo condition body))
      fun n => repeatWhile h n depth chain condition body :=
    .of_step repeatWhile_growing (fun s => by rw [execute]) fun n s => by rw [execute]
  refine hloop.trans ⟨fun s n => ?_, fun s n => ?_⟩
  · exact (eventually_ge_atTop n).mono fun k hk => (repeatWhile_below_rounds hk s).trans
      (rounds_below (fun _ => .refl _) (fun _ => .refl _) hk s)
  · exact (eventually_ge_atTop (n + n)).mono fun k hk =>
      (rounds_below_repeatWhile n n s).trans (repeatWhile_growing s _ k hk)

end Statements

end LoxKit
