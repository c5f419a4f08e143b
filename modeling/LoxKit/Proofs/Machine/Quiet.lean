import LoxKit.Proofs.Machine.Reached
import LoxKit.Proofs.Machine.Trace

/-!
# What leaves the names of the globals alone

The frame of the globals is in reach of every function, but only a declaration that runs directly
among the globals adds a name to it. A declaration anywhere else goes to the frame of its own scope,
and an assignment changes what is bound already. So what begins in any other moment leaves the names
that the globals bind as they are, also if it fails.

Headlines:
* `SameGlobals`: two stores whose globals bind the same names.
* `Moment.Quiet`: the moments that declare nothing among the globals.
* `Good.quiet`: they lead to moments of this kind only.
* **`Good.sameGlobals`**: they leave the names of the globals as they are.
-/

namespace LoxKit

open LoxKit.Action

/-! ## The names of the globals -/

/-- The globals of two stores bind the same names. -/
def SameGlobals (s s' : Store) : Prop :=
  0 < s.frames.size → 0 < s'.frames.size ∧
    ∀ name, (s'.frames.read 0 name).isSome = (s.frames.read 0 name).isSome

namespace SameGlobals

theorem refl (s : Store) : SameGlobals s s :=
  fun h => ⟨h, fun _ => rfl⟩

theorem trans {s₁ s₂ s₃ : Store} (h : SameGlobals s₁ s₂) (h' : SameGlobals s₂ s₃) :
    SameGlobals s₁ s₃ := by
  intro hpos
  obtain ⟨hpos₂, hnames⟩ := h hpos
  obtain ⟨hpos₃, hnames'⟩ := h' hpos₂
  exact ⟨hpos₃, fun name => (hnames' name).trans (hnames name)⟩

theorem of_frames {s s' : Store} (h : s'.frames = s.frames) : SameGlobals s s' := by
  intro hpos
  rw [h]
  exact ⟨hpos, fun _ => rfl⟩

/-- A new frame is not that of the globals. -/
theorem push (s : Store) (b : Bindings Value) :
    SameGlobals s { s with frames := s.frames.push b } := by
  intro hpos
  refine ⟨?_, fun name => ?_⟩
  · rw [Frames.size_push]
    exact Nat.succ_pos _
  · rw [Frames.read_push, if_neg (Nat.ne_of_lt hpos)]

/-- Binding a name in another frame, or one that the globals bind already. -/
theorem define (s : Store) {id : FrameId} {name : String} (v : Value)
    (h : id = 0 → (s.frames.read 0 name).isSome = true) :
    SameGlobals s { s with frames := s.frames.define id name v } := by
  intro hpos
  refine ⟨by rwa [Frames.size_define], fun key => ?_⟩
  by_cases hid : id = 0
  · subst hid
    rw [Frames.read_define _ hpos]
    split
    · rename_i hkey
      rw [hkey.2, h rfl]
      rfl
    · rfl
  · unfold Frames.read
    rw [Frames.frame_define, if_neg fun hz => hid hz.1.symm]

end SameGlobals

/-! ## Quiet moments -/

/-- The names that a node declares in the frame in which it runs. -/
def Node.declares {ρ : Type} : Node ρ → List String
  | .stmt st => st.declares
  | .stmts sts => sts.flatMap Stmt.declares
  | _ => []

theorem declares_linkStmt (around : Surroundings) (scopes : Scopes) (st : Stmt Unit) :
    (linkStmt around scopes st).tree.declares = st.declares := by
  cases st with
  | function f =>
    cases f
    simp only [linkStmt, linkFunction, Stmt.declares, Function.name]
  | _ => simp only [linkStmt, Stmt.declares]

theorem declares_linkStmts (around : Surroundings) (sts : List (Stmt Unit)) :
    ∀ scopes : Scopes, (linkStmts around scopes sts).tree.flatMap Stmt.declares =
      sts.flatMap Stmt.declares := by
  induction sts with
  | nil =>
    intro scopes
    rw [linkStmts]
    rfl
  | cons st sts ih =>
    intro scopes
    rw [linkStmts, List.flatMap_cons, List.flatMap_cons, declares_linkStmt, ih]

theorem Place.declares_linked (p : Place) : p.linked.declares = p.node.declares := by
  obtain ⟨around, scopes, node⟩ := p
  cases node with
  | stmt st => exact declares_linkStmt around scopes st
  | stmts sts => exact declares_linkStmts around sts scopes
  | expr | exprs | loop | function | method => rfl

/-- What a proper node that declares nothing guards or contains declares nothing either. -/
theorem Node.Proper.declares_part {ρ : Type} {n n' : Node ρ} {i : Nat} (h : n.Proper)
    (hn : n.part i = some n') (hd : n.declares = []) : n'.declares = [] := by
  unfold Node.part at hn
  split at hn
  · unfold Node.exprPart at hn
    split at hn <;> cases hn <;> rfl
  · cases hn
    rfl
  · cases hn
    rfl
  · unfold Node.stmtPart at hn
    split at hn <;> cases hn
    case h_5 => cases h with | ifThen _ _ ht => exact ht
    case h_7 => cases h with | ifElse _ _ ht _ _ => exact ht
    case h_8 => cases h with | ifElse _ _ _ _ he => exact he
    all_goals rfl
  · cases hn
    exact (List.append_eq_nil_iff.mp hd).1
  · cases hn
    exact (List.append_eq_nil_iff.mp hd).2
  · cases hn
    rfl
  · cases hn
    exact h.2.2
  · cases hn
    rfl
  · exact absurd hn (by simp)

/-- Nothing is declared among the globals, at least not directly. -/
def Moment.Quiet : Moment → Prop
  | .run n _ _ chain _ => chain.head? = some 0 → n.declares = []
  | _ => True

section Quiet

variable {h : Host} {V : Moment → Prop} {m m' : Moment}

/-- Quiet moments lead to quiet moments only. -/
theorem Good.quiet (hg : Good V m) (hq : m.Quiet) (hc : Calls h m m') : m'.Quiet := by
  cases hc with
  | part _ hn =>
    cases hg with
    | @run p _ _ _ _ _ _ hacc hp =>
      subst hp
      intro hhead
      have hproper := hacc.regular.proper
      rw [Place.linked_part hproper, Option.map_eq_some_iff] at hn
      obtain ⟨p', hp', rfl⟩ := hn
      obtain ⟨n, hn, rfl⟩ := Place.part_eq_some.mp hp'
      have hnone := hq hhead
      rw [Place.declares_linked] at hnone ⊢
      exact hproper.declares_part hn hnone
  | block =>
    cases hg with
    | run _ _ _ _ hs =>
      intro hhead
      exact absurd (Option.some.inj hhead) (Nat.ne_of_gt hs.globals)
  | body =>
    cases hg with
    | invoke hs =>
      intro hhead
      exact absurd (Option.some.inj hhead) (Nat.ne_of_gt hs.globals)
  | get | super | call | closure | construct | initializer => trivial

/-- Where an assignment goes, a global is bound already. -/
theorem Good.store_bound {target : Reference Link} {value : Expr Link} {fuel depth : Nat}
    {chain : Chain} {s₀ s s' : Store} {v : Value}
    (hg : Good V (.run (.expr (.assign target value)) fuel depth chain s₀))
    (hd : store chain target v s = .done () s') : SameGlobals s s' := by
  cases hg with
  | @run p levels _ _ _ _ _ hacc hp hlevels hready =>
    obtain ⟨e, hpe, he⟩ := Place.linked_eq_expr hp
    have hregular := hacc.regular
    rw [hpe] at hregular hready
    obtain ⟨raw, hraw, rfl⟩ := hregular.link_eq (by rw [he]; rfl)
    unfold store at hd
    cases hlink : p.scopes.hops? raw.name.text with
    | some d =>
      obtain ⟨scope, hscope, -⟩ := Regular.hops?_eq_some hlink
      obtain ⟨id, hid, hpos, -⟩ := hready.found hraw hscope
      simp only [hlink, hid] at hd
      cases hd
      exact .define s v fun hz => absurd hz (Nat.ne_of_gt hpos)
    | none =>
      simp only [hlink] at hd
      cases hh : s.frames.holder? globals raw.name.text with
      | none =>
        rw [hh] at hd
        cases hd
      | some id =>
        rw [hh] at hd
        cases hd
        refine .define s v ?_
        rintro rfl
        exact List.find?_some (p := fun id => (s.frames.frame id).contains raw.name.text) hh

/-- What is called decides whether the names change before a moment leads to another. -/
theorem Passes.sameGlobals {s s' : Store} (hp : Passes h m s s')
    (hcalled : ∀ m' s', Calls h m m' → m'.leaves? h = some s' → SameGlobals m'.store s') :
    SameGlobals s s' := by
  cases hp with
  | called hc hl => exact hcalled _ _ hc hl
  | aside hf => exact .of_frames hf
  | pushed b => exact .push s b

/-- Nor does a quiet moment change them itself. -/
theorem Good.changes_sameGlobals (hg : Good V m) (hq : m.Quiet) {s s' : Store}
    (hp : Changes h m s s')
    (hcalled : ∀ m' s', Calls h m m' → m'.leaves? h = some s' → SameGlobals m'.store s') :
    SameGlobals s s' := by
  cases hp with
  | passes hp => exact hp.sameGlobals hcalled
  | @declared st fuel depth chain s₀ _ _ name v hm hn hd =>
    subst hm
    cases chain with
    | nil => cases hd
    | cons id rest =>
      cases hd
      refine .define s v ?_
      rintro rfl
      rw [show st.declares = [] from hq rfl] at hn
      exact absurd hn List.not_mem_nil
  | assigned hm hd =>
    subst hm
    exact hg.store_bound hd

/-- The steps that what begins in a moment is allowed. -/
def Moment.fuel : Moment → Nat
  | run _ fuel _ _ _ | apply _ _ fuel _ _ | invoke _ _ fuel _ _ => fuel
  | bind _ _ _ => 0

theorem Calls.fuel_lt (hc : Calls h m m') : m'.fuel < m.fuel := by
  cases hc with
  | get | super | construct => exact Nat.succ_pos _
  | part | block | call | closure | initializer | body => exact Nat.lt_succ_self _

/-- What each step keeps is kept by all of them. -/
theorem SameGlobals.of_steps {R : Store → Store → Prop} {s s' : Store}
    (hs : Relation.ReflTransGen R s s') (hR : ∀ {s s'}, R s s' → SameGlobals s s') :
    SameGlobals s s' := by
  induction hs with
  | refl => exact .refl _
  | tail _ hstep hbefore => exact hbefore.trans (hR hstep)

/-- **What begins in a quiet moment leaves the names of the globals as they are.** -/
theorem Good.sameGlobals (hV : ∀ {m m'}, V m → Calls h m m' → V m') (hv : V m) (hg : Good V m)
    (hq : m.Quiet) {s' : Store} (hl : m.leaves? h = some s') : SameGlobals m.store s' := by
  -- by induction on the steps allowed: what is called has fewer
  induction hfuel : m.fuel using Nat.strongRecOn generalizing m s' with
  | ind fuel ih =>
    refine .of_steps (Moment.traced hl) fun hp => hg.changes_sameGlobals hq hp ?_
    intro m' s' hc hl'
    exact ih m'.fuel (hfuel ▸ hc.fuel_lt) (hV hv hc) (hg.calls hV hv hc) (hg.quiet hq hc) hl' rfl

/-- So does all that happens before a moment leads to another, if it leads to quiet ones only. -/
theorem Good.sameGlobals_calls (hV : ∀ {m m'}, V m → Calls h m m' → V m') (hv : V m)
    (hg : Good V m) (hq : ∀ {m'}, Calls h m m' → m'.Quiet) (hc : Calls h m m') :
    SameGlobals m.store m'.store := by
  refine .of_steps hc.traced fun hp => hp.sameGlobals fun m₁ s₁ hc₁ hl => ?_
  exact (hg.calls hV hv hc₁).sameGlobals hV (hV hv hc₁) (hq hc₁) hl

end Quiet

end LoxKit
