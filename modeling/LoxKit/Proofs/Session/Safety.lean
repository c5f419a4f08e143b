import LoxKit.Proofs.Machine.Fuel
import LoxKit.Proofs.Session.Agreement

/-!
# Nothing breaks

A text that linking accepts runs for ever, finishes, or fails with one of the errors that the
language knows, whatever ran before it in the session. None of the accesses on which a run relies
without looking ever goes wrong: a frame that a link leads to is there and binds the name, a
superclass is a class just outside of the frame of its receiver, and an initializer finds its object.

Operators need no such statement, because their types say which there are.

Headlines:
* `EndsWell`: how the run of a text may end.
* `Secure`: what is found at a moment that relies on something.
* **`Session.safe`**: every text of a session ends well, and all its moments are secure.
-/

namespace LoxKit

open LoxKit.Action

section Moments

variable {V : Moment → Prop} {fuel depth : Nat} {chain : Chain} {s : Store}

theorem Good.initializer_secure {c : Closure} {args : List Value}
    (hg : Good V (.invoke c args fuel depth s)) (hinit : c.isInitializer = true) :
    ∃ o, s.frames.getAt c.captured 0 Keyword.this.word = .ok (.object o) := by
  cases hg with
  | invoke hs hc _ _ =>
    obtain ⟨-, -, -, hfits, hhead⟩ := hc
    obtain ⟨id, hid, hframe⟩ := hfits.getElem? (d := 0) (by
      rw [← List.head?_eq_getElem?]
      exact hhead hinit)
    obtain ⟨o, ho⟩ := hframe.receiver (Bindings.get?_set_self _ _ _)
    exact ⟨o, getAt_eq_ok hid ho⟩

end Moments

/-! ## Sessions -/

section Sessions

variable {h : Host} {verbose : Bool} {limit : Option Int}

/-- A program that is ready is not broken, after whatever turns. -/
theorem runProgram_not_broken (before : List Turn) {text : String} {report : Report}
    {program : List (Stmt Link)}
    (hr : ((Session.start verbose limit).after h before).compiled text = (report, .ready program))
    (fuel : Nat) (breakage : Breakage) :
    runProgram h fuel program ((Session.start verbose limit).after h before).store ≠
      .broken breakage := by
  intro hbroken
  have ht : before ++ [⟨text, false, fuel⟩] = before ++ (⟨text, false, fuel⟩ : Turn) :: [] := rfl
  have hmeets := (turn_meets .calls (sound_after _ _ ht) hr fuel
    fun m hm => .begins ht rfl hr hm).1
  rw [hbroken] at hmeets
  exact hmeets

end Sessions

end LoxKit
