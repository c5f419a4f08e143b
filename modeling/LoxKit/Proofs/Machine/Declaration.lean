import LoxKit.Proofs.Machine.Effects

/-!
# Class declarations

The declaration of a class runs in two halves. In the first the superclass is looked up and the name
of the class is bound to nothing; a class may fail only there. In the second the methods are made
and the name is bound to the class, which always comes to an end.

Headlines:
* `execute_classDecl`: the two halves of a declaration with a superclass.
* `Founds.of_declareClass`: the class that the second half makes is the one that the declaration
  makes.
-/

namespace LoxKit

open LoxKit.Action

variable {h : Host} {fuel depth : Nat} {chain inner : Chain} {s s₁ s' : Store} {name : Name}
  {above : Option ClassValue} {r : Reference Link} {methods : List (Function Link)} {id : FrameId}
  {k made : ClassValue}

/-- The second half of a class declaration. -/
def declareClass (chain inner : Chain) (name : Name) (above : Option ClassValue)
    (methods : List (Function Link)) : Action Completion := do
  let table ← newMethods inner methods .empty
  let id ← newId
  defineIn chain name.text (.ofClass (.mk id name.text above table))
  pure .carryOn

/-- What it comes to when the methods are made. -/
theorem declareClass_eq (hid : chain.head? = some id) {table : Bindings Closure}
    (htable : newMethods inner methods .empty s = .done table s₁) :
    declareClass chain inner name above methods s = .done .carryOn { s₁ with
      frames := s₁.frames.define id name.text (.ofClass (.mk s₁.fresh name.text above table))
      fresh := s₁.fresh + 1 } := by
  cases chain with
  | nil => exact absurd hid (by simp)
  | cons first rest =>
    cases hid
    exact Action.bind_of_done htable

theorem getAt_define (hid : chain.head? = some id) (hlt : id < s.frames.size) (name : String)
    (v : Value) : (s.frames.define id name v).getAt chain 0 name = .ok v := by
  refine getAt_eq_ok (by rwa [← List.head?_eq_getElem?]) ?_
  rw [Frames.read_define _ hlt, if_pos ⟨rfl, rfl⟩]

/-- It always comes to a class. -/
theorem declareClass_done (hid : chain.head? = some id) (hlt : id < s.frames.size) (inner : Chain)
    (name : Name) (above : Option ClassValue) (methods : List (Function Link)) :
    ∃ made s', declareClass chain inner name above methods s = .done .carryOn s' ∧
      s'.frames.getAt chain 0 name.text = .ok (.ofClass made) ∧ made.superclass? = above := by
  obtain ⟨table, fresh, htable⟩ := newMethods_done inner methods .empty s
  exact ⟨_, _, declareClass_eq hid htable, getAt_define (s := { s with fresh }) hid hlt _ _, rfl⟩

/-- The two halves of a declaration whose superclass is found. -/
theorem execute_classDecl (hv : follow chain r s = .done (.ofClass k) s)
    (hdefine : defineIn chain name.text .nil s = .done () s₁) :
    execute h (fuel + 1) depth chain (.classDecl name (some r) methods) s =
      declareClass chain (s₁.frames.size :: chain) name (some k) methods
        { s₁ with
          frames := s₁.frames.push (Bindings.empty.set Keyword.super.word (.ofClass k)) } := by
  rw [execute]
  exact (Action.bind_of_done (a := .ofClass k) hv).trans (Action.bind_of_done hdefine)

/-- The class that the second half makes is the one that the declaration makes. -/
theorem Founds.of_declareClass (hv : follow chain r s = .done (.ofClass k) s)
    (hdefine : defineIn chain name.text .nil s = .done () s₁)
    (hdone : declareClass chain (s₁.frames.size :: chain) name (some k) methods
      { s₁ with frames := s₁.frames.push (Bindings.empty.set Keyword.super.word (.ofClass k)) } =
        .done .carryOn s')
    (hget : s'.frames.getAt chain 0 name.text = .ok (.ofClass made))
    (hsuper : made.superclass? = some k) (fuel depth : Nat) :
    Founds (.run (.stmt (.classDecl name (some r) methods)) (fuel + 1) depth chain s) k made :=
  .mk hv (fun _ => (execute_classDecl hv hdefine).trans hdone) hget hsuper

end LoxKit
