import LoxKit.Machine.Evaluation
import Mathlib

/-!
# More steps

A run that finishes with some number of steps finishes in the same way with any larger number, so
that what a finished run does is not a matter of the steps allowed.

Headlines:
* `Outcome.Below.bind`: the rule for sequences.
* **`runProgram_below`**: a program that is allowed more steps only goes on where it was cut off.
-/

namespace LoxKit

namespace Outcome

variable {α β : Type}

/-- The first outcome is the second, unless the steps did not suffice. -/
def Below (o o' : Outcome α) : Prop :=
  o = .unfinished ∨ o = o'

theorem Below.refl (o : Outcome α) : Below o o :=
  Or.inr rfl

theorem Below.trans {o₁ o₂ o₃ : Outcome α} (h : Below o₁ o₂) (h' : Below o₂ o₃) : Below o₁ o₃ := by
  rcases h with h | rfl
  · exact Or.inl h
  · exact h'

theorem Below.bind {m m' : Action α} {f f' : α → Action β} {s : Store} (hm : Below (m s) (m' s))
    (hf : ∀ a s', m s = .done a s' → Below (f a s') (f' a s')) :
    Below ((m >>= f) s) ((m' >>= f') s) := by
  show Below (Action.bind m f s) (Action.bind m' f' s)
  rw [Action.bind, Action.bind]
  rcases hm with hm | hm
  · rw [hm]
    exact Or.inl rfl
  · rw [← hm]
    cases ho : m s with
    | done a s' => exact hf a s' ho
    | failed error line s' => exact .refl _
    | broken breakage => exact .refl _
    | unfinished => exact .refl _

theorem Below.ite {c : Prop} [Decidable c] {m m' n n' : Action α} {s : Store}
    (hm : Below (m s) (m' s)) (hn : Below (n s) (n' s)) :
    Below ((if c then m else n) s) ((if c then m' else n') s) := by
  split
  · exact hm
  · exact hn

end Outcome

open Outcome LoxKit.Action

variable {h : Host} {fuel depth : Nat} {chain : Chain} {s : Store}

/-- One step more changes nothing that is finished. -/
structure Steady (h : Host) (fuel : Nat) : Prop where
  evaluate : ∀ depth chain e s,
    Below (evaluate h fuel depth chain e s) (evaluate h (fuel + 1) depth chain e s)
  evaluateAll : ∀ depth chain es s,
    Below (evaluateAll h fuel depth chain es s) (evaluateAll h (fuel + 1) depth chain es s)
  apply : ∀ depth f args s, Below (apply h fuel depth f args s) (apply h (fuel + 1) depth f args s)
  invoke : ∀ depth c args s, Below (invoke h fuel depth c args s) (invoke h (fuel + 1) depth c args s)
  execute : ∀ depth chain st s,
    Below (execute h fuel depth chain st s) (execute h (fuel + 1) depth chain st s)
  executeAll : ∀ depth chain sts s,
    Below (executeAll h fuel depth chain sts s) (executeAll h (fuel + 1) depth chain sts s)
  repeatWhile : ∀ depth chain condition body s,
    Below (repeatWhile h fuel depth chain condition body s)
      (repeatWhile h (fuel + 1) depth chain condition body s)

theorem steady_zero : Steady h 0 where
  evaluate _ _ _ _ := Or.inl (by rw [LoxKit.evaluate])
  evaluateAll _ _ _ _ := Or.inl (by rw [LoxKit.evaluateAll])
  apply _ _ _ _ := Or.inl (by rw [LoxKit.apply])
  invoke _ _ _ _ := Or.inl (by rw [LoxKit.invoke])
  execute _ _ _ _ := Or.inl (by rw [LoxKit.execute])
  executeAll _ _ _ _ := Or.inl (by rw [LoxKit.executeAll])
  repeatWhile _ _ _ _ _ := Or.inl (by rw [LoxKit.repeatWhile])

theorem Steady.evaluate_succ (hs : Steady h fuel) (e : Expr Link) :
    Below (LoxKit.evaluate h (fuel + 1) depth chain e s)
      (LoxKit.evaluate h (fuel + 2) depth chain e s) := by
  cases e with
  | literal | var | this | super =>
    rw [LoxKit.evaluate, LoxKit.evaluate]
    exact .refl _
  | grouping inner =>
    rw [LoxKit.evaluate, LoxKit.evaluate]
    exact hs.evaluate _ _ _ _
  | unary op pos arg =>
    rw [LoxKit.evaluate, LoxKit.evaluate]
    exact .bind (hs.evaluate _ _ _ _) fun _ _ _ => .refl _
  | binary op pos lhs rhs =>
    rw [LoxKit.evaluate, LoxKit.evaluate]
    exact .bind (hs.evaluate _ _ _ _) fun _ _ _ =>
      .bind (hs.evaluate _ _ _ _) fun _ _ _ => .refl _
  | logical op pos lhs rhs =>
    rw [LoxKit.evaluate, LoxKit.evaluate]
    exact .bind (hs.evaluate _ _ _ _) fun _ _ _ => .ite (.refl _) (hs.evaluate _ _ _ _)
  | assign target value =>
    rw [LoxKit.evaluate, LoxKit.evaluate]
    exact .bind (hs.evaluate _ _ _ _) fun _ _ _ => .refl _
  | call callee args paren =>
    rw [LoxKit.evaluate, LoxKit.evaluate]
    refine .bind (hs.evaluate _ _ _ _) fun f s₁ _ => .bind (hs.evaluateAll _ _ _ _) fun vs s₂ _ => ?_
    cases f.arity? with
    | none => exact .refl _
    | some arity => exact .ite (.refl _) (.ite (.refl _) (hs.apply _ _ _ _))
  | get object field =>
    rw [LoxKit.evaluate, LoxKit.evaluate]
    exact .bind (hs.evaluate _ _ _ _) fun _ _ _ => .refl _
  | set object field value =>
    rw [LoxKit.evaluate, LoxKit.evaluate]
    refine .bind (hs.evaluate _ _ _ _) fun v s₁ _ => ?_
    cases v with
    | object o => exact .bind (hs.evaluate _ _ _ _) fun _ _ _ => .refl _
    | nil | bool | number | string | closure | native | ofClass => exact .refl _

theorem Steady.execute_succ (hs : Steady h fuel) (st : Stmt Link) :
    Below (LoxKit.execute h (fuel + 1) depth chain st s)
      (LoxKit.execute h (fuel + 2) depth chain st s) := by
  cases st with
  | function | classDecl =>
    rw [LoxKit.execute, LoxKit.execute]
    exact .refl _
  | expression e | print e =>
    rw [LoxKit.execute, LoxKit.execute]
    exact .bind (hs.evaluate _ _ _ _) fun _ _ _ => .refl _
  | var name initializer =>
    cases initializer with
    | none =>
      rw [LoxKit.execute, LoxKit.execute]
      exact .refl _
    | some e =>
      rw [LoxKit.execute, LoxKit.execute]
      exact .bind (hs.evaluate _ _ _ _) fun _ _ _ => .refl _
  | block body =>
    rw [LoxKit.execute, LoxKit.execute]
    exact .bind (.refl _) fun _ _ _ => hs.executeAll _ _ _ _
  | ifThen condition thenPart =>
    rw [LoxKit.execute, LoxKit.execute]
    exact .bind (hs.evaluate _ _ _ _) fun _ _ _ => .ite (hs.execute _ _ _ _) (.refl _)
  | ifElse condition thenPart elsePart =>
    rw [LoxKit.execute, LoxKit.execute]
    exact .bind (hs.evaluate _ _ _ _) fun _ _ _ => .ite (hs.execute _ _ _ _) (hs.execute _ _ _ _)
  | whileDo condition body =>
    rw [LoxKit.execute, LoxKit.execute]
    exact hs.repeatWhile _ _ _ _ _
  | giveBack keyword value =>
    cases value with
    | none =>
      rw [LoxKit.execute, LoxKit.execute]
      exact .refl _
    | some e =>
      rw [LoxKit.execute, LoxKit.execute]
      exact .bind (hs.evaluate _ _ _ _) fun _ _ _ => .refl _

theorem Steady.apply_succ (hs : Steady h fuel) (f : Value) (args : List Value) :
    Below (LoxKit.apply h (fuel + 1) depth f args s) (LoxKit.apply h (fuel + 2) depth f args s) := by
  cases f with
  | closure c =>
    rw [LoxKit.apply, LoxKit.apply]
    exact hs.invoke _ _ _ _
  | ofClass k =>
    rw [LoxKit.apply, LoxKit.apply]
    refine .bind (.refl _) fun o s₁ _ => ?_
    cases k.findMethod? initName with
    | none => exact .refl _
    | some c =>
      exact .bind (.refl _) fun _ _ _ => .bind (hs.invoke _ _ _ _) fun _ _ _ => .refl _
  | native n =>
    cases n
    rw [LoxKit.apply, LoxKit.apply]
    exact .refl _
  | nil | bool | number | string | object =>
    rw [LoxKit.apply, LoxKit.apply]
    · exact .refl _
    all_goals simp

theorem steady_succ (hs : Steady h fuel) : Steady h (fuel + 1) where
  evaluate _ _ e _ := hs.evaluate_succ e
  execute _ _ st _ := hs.execute_succ st
  apply _ f args _ := hs.apply_succ f args
  evaluateAll depth chain es s := by
    cases es with
    | nil =>
      rw [LoxKit.evaluateAll, LoxKit.evaluateAll]
      exact .refl _
    | cons e es =>
      rw [LoxKit.evaluateAll, LoxKit.evaluateAll]
      exact .bind (hs.evaluate _ _ _ _) fun _ _ _ =>
        .bind (hs.evaluateAll _ _ _ _) fun _ _ _ => .refl _
  invoke depth c args s := by
    rw [LoxKit.invoke, LoxKit.invoke]
    exact .bind (.refl _) fun _ _ _ => .bind (hs.executeAll _ _ _ _) fun _ _ _ => .refl _
  executeAll depth chain sts s := by
    cases sts with
    | nil =>
      rw [LoxKit.executeAll, LoxKit.executeAll]
      exact .refl _
    | cons st sts =>
      rw [LoxKit.executeAll, LoxKit.executeAll]
      refine .bind (hs.execute _ _ _ _) fun c s₁ _ => ?_
      cases c with
      | carryOn => exact hs.executeAll _ _ _ _
      | returned v => exact .refl _
  repeatWhile depth chain condition body s := by
    rw [LoxKit.repeatWhile, LoxKit.repeatWhile]
    refine .bind (hs.evaluate _ _ _ _) fun v s₁ _ => .ite ?_ (.refl _)
    refine .bind (hs.execute _ _ _ _) fun c s₂ _ => ?_
    cases c with
    | carryOn => exact hs.repeatWhile _ _ _ _ _
    | returned v => exact .refl _

theorem steady (h : Host) (fuel : Nat) : Steady h fuel := by
  induction fuel with
  | zero => exact steady_zero
  | succ fuel ih => exact steady_succ ih

theorem runProgram_below_succ (h : Host) (fuel : Nat) (program : List (Stmt Link)) (s : Store) :
    Below (runProgram h fuel program s) (runProgram h (fuel + 1) program s) := by
  induction program generalizing s with
  | nil =>
    rw [runProgram, runProgram]
    exact .refl _
  | cons stmt program ih =>
    rw [runProgram, runProgram]
    rcases (steady h fuel).execute 0 Action.globals stmt s with hs | hs
    · rw [hs]
      exact Or.inl rfl
    · rw [← hs]
      cases LoxKit.execute h fuel 0 Action.globals stmt s with
      | done c s' =>
        cases c with
        | carryOn => exact ih s'
        | returned v => exact .refl _
      | failed error line s' => exact .refl _
      | broken breakage => exact .refl _
      | unfinished => exact .refl _

/-- **A program that is allowed more steps only goes on where it was cut off.** -/
theorem runProgram_below (h : Host) (program : List (Stmt Link)) (s : Store) {fuel more : Nat}
    (hle : fuel ≤ more) : Below (runProgram h fuel program s) (runProgram h more program s) := by
  induction hle with
  | refl => exact .refl _
  | @step more _ ih => exact ih.trans (runProgram_below_succ h more program s)

end LoxKit
