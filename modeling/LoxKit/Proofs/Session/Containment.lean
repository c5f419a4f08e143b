import LoxKit.Proofs.Machine.Framing
import LoxKit.Proofs.Session.Agreement

/-!
# What a block or a call changes outside

Wherever a session enters a block or calls a function, a method or a class, what exists before is
changed by assignments only: no frame gets or loses a name, and if the value of a name is another
one afterwards, then an assignment was evaluated in between that linking maps to the scope for
which the frame was made, or to no scope at all if the frame is that of the globals. The chain in
which it was evaluated contains the frame. All this is also true of a block that is left early, by
a return or by an error.

Headlines:
* `Moment.Enters`: a block is entered, or something is called.
* `Resolved`: an assignment is evaluated that linking maps to a variable.
* **`Visited.contained`**: nothing else changes a frame that exists before.
-/

namespace LoxKit

open LoxKit.Action

/-- A block is entered, or a function, a method or a class is called. -/
inductive Moment.Enters : Moment → Prop
  | block {body : List (Stmt Link)} {fuel depth : Nat} {chain : Chain} {s : Store} :
      Enters (.run (.stmt (.block body)) fuel depth chain s)
  | apply {f : Value} {args : List Value} {fuel depth : Nat} {s : Store} :
      Enters (.apply f args fuel depth s)
  | invoke {c : Closure} {args : List Value} {fuel depth : Nat} {s : Store} :
      Enters (.invoke c args fuel depth s)

theorem Moment.Enters.beyond {m : Moment} (he : m.Enters) (n : Nat) : m.Beyond n := by
  cases he with
  | block => exact .block
  | apply => exact .apply
  | invoke => exact .invoke

/-- On behalf of a moment, an assignment is evaluated that linking maps to the declaration of a name
in the scope for which a frame was made, or to no scope if it is that of the globals. -/
inductive Resolved (h : Host) (V : Moment → Prop) (m : Moment) (id : FrameId) (name : String) : Prop
  | mk {p : Place} {levels : List Level} {target : Reference Link} {value : Expr Link}
      {fuel depth : Nat} {chain : Chain} {s s' : Store} {v : Value}
      (hm : Relation.ReflTransGen (Calls h) m
        (.run (.expr (.assign target value)) fuel depth chain s))
      (hd : evaluate h fuel depth chain (.assign target value) s = .done v s')
      (hname : target.name.text = name)
      (hp : p.linked = .expr (.assign target value))
      (ha : Agreement V p levels target false chain s)
      (hchain : id ∈ chain)
      (hlink : (target.link = none ∧ id = 0) ∨ ∃ d level, target.link = some d ∧
        levels[d]? = some level ∧ name ∈ level.declared ∧ level.frame = id) :
      Resolved h V m id name

section Resolving

variable {h : Host} {V : Moment → Prop} {m m' : Moment}

/-- What is true of a moment is true of all the moments that it leads to. -/
theorem Good.behind (hV : ∀ {m m'}, V m → Calls h m m' → V m') (hv : V m) (hg : Good V m)
    (hm : Relation.ReflTransGen (Calls h) m m') : Good V m' := by
  suffices hboth : V m' ∧ Good V m' from hboth.2
  induction hm with
  | refl => exact ⟨hv, hg⟩
  | tail _ hc ih => exact ⟨hV ih.1 hc, ih.2.calls hV ih.1 hc⟩

/-- Where the reference of an assignment leads is what linking maps it to. -/
theorem Assigns.resolved (hV : ∀ {m m'}, V m → Calls h m m' → V m') (hv : V m) (hg : Good V m)
    {id : FrameId} {name : String} (ha : Assigns h m id name) : Resolved h V m id name := by
  obtain ⟨hm, hd, rfl, hleads⟩ := ha
  obtain ⟨p, levels, hp, hagrees⟩ := (hg.behind hV hv hm).agrees rfl
  unfold Reference.LeadsTo at hleads
  rename_i target value fuel depth chain s s' v
  cases hlink : target.link with
  | none =>
    simp only [hlink] at hleads
    subst hleads
    refine ⟨hm, hd, rfl, hp, hagrees, ?_, Or.inl ⟨hlink, rfl⟩⟩
    rw [hagrees.chain_eq, Level.chain]
    exact List.mem_append_right _ (List.mem_singleton_self 0)
  | some d =>
    simp only [hlink] at hleads
    obtain ⟨level, hlevel, hmem, -, hframe, -⟩ := hagrees.linked d hlink
    rw [hframe] at hleads
    cases hleads
    exact ⟨hm, hd, rfl, hp, hagrees, List.mem_of_getElem? hframe,
      Or.inr ⟨d, level, hlink, hlevel, hmem, rfl⟩⟩

end Resolving

/-- **A block or a call changes what exists before by assignments only.** No frame that exists
before gets or loses a name, and where a value differs, an assignment was evaluated in between that
linking maps to that very name in that very frame. -/
theorem Visited.contained {h : Host} {verbose : Bool} {limit : Option Int} {turns : List Turn}
    {m : Moment} (hv : Visited h (.start verbose limit) turns m) (he : m.Enters) {s' : Store}
    (hl : m.leaves? h = some s') :
    Framed m.store.frames.size (Resolved h (Visited h (.start verbose limit) turns) m)
      m.store s' := by
  refine (hv.good.framed .calls hv (Nat.le_refl _) (he.beyond _) hl).mono fun id name ha => ?_
  exact ha.resolved .calls hv hv.good

/-- The block in `var a; { a = true; }`. -/
def assigningBlock : Moment :=
  .run (.stmt (.block [.expression (.assign ⟨⟨"a", ⟨1, 9⟩⟩, none⟩
      (.literal (.bool true) ⟨.keyword .true, "true", ⟨1, 13⟩⟩))])) 9 0 globals
    { Store.initial with frames := Store.initial.frames.define 0 "a" .nil }

/-- It leaves another value behind, and accounts for it. -/
theorem contained_assigningBlock :
    ∃ s', assigningBlock.leaves? ⟨fun _ => 0, 1000⟩ = some s' ∧
      s'.frames.read 0 "a" = some (.bool true) ∧
      Framed 1 (Resolved ⟨fun _ => 0, 1000⟩
        (Visited ⟨fun _ => 0, 1000⟩ (.start false none) [⟨"var a; { a = true; }", false, 9⟩])
        assigningBlock) assigningBlock.store s' := by
  have hready : ((Session.start false none).compiled "var a; { a = true; }").2 = .ready [
      .var ⟨"a", ⟨1, 4⟩⟩ none, .block [.expression (.assign ⟨⟨"a", ⟨1, 9⟩⟩, none⟩
        (.literal (.bool true) ⟨.keyword .true, "true", ⟨1, 13⟩⟩))]] := by cbv
  have hturns : [(⟨"var a; { a = true; }", false, 9⟩ : Turn)] =
      [] ++ ⟨"var a; { a = true; }", false, 9⟩ :: [] := rfl
  have hfirst : execute ⟨fun _ => 0, 1000⟩ 9 0 globals (.var ⟨"a", ⟨1, 4⟩⟩ none) Store.initial =
      .done .carryOn assigningBlock.store := by
    rw [execute]
    rfl
  have hv : Visited ⟨fun _ => 0, 1000⟩ (.start false none)
      [⟨"var a; { a = true; }", false, 9⟩] assigningBlock :=
    .begins hturns rfl (Prod.ext rfl hready) (.later hfirst .first)
  have hs : assigningBlock.leaves? ⟨fun _ => 0, 1000⟩ = some { Store.initial with
      frames := (assigningBlock.store.frames.push .empty).define 0 "a" (.bool true) } := by
    have hholder : ((Store.initial.frames.define 0 "a" .nil).push .empty).holder? globals "a" =
      some 0 := by rfl
    simp only [assigningBlock, Moment.leaves?, Node.run, execute, executeAll, evaluate, Bind.bind,
      Action.bind, newFrame, Pure.pure, Action.pure, store, hholder]
    rfl
  exact ⟨_, hs, rfl, Visited.contained hv .block hs⟩

end LoxKit
