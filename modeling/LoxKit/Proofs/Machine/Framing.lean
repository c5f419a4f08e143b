import LoxKit.Proofs.Machine.Quiet

/-!
# What a block and a call leave alone

A block runs in a frame that is made for it, and so does the body of a function. What is declared
there goes to frames that were not made before, so that the frames made before bind the names that
they have bound. A value in one of them changes only if an assignment is evaluated whose reference
leads to that frame: linking gives it no other way out, and writing in a frame by its number is safe
because the scopes around a place are complete, all but the innermost.

Headlines:
* `Framed`: what two stores have in common in the first frames.
* `Assigns`: the assignments that are evaluated on behalf of a moment.
* `Moment.Beyond`: the moments that declare nothing in the first frames.
* **`Good.framed`**: they change these frames by assignments only.
-/

namespace LoxKit

open LoxKit.Action

/-! ## The first frames of a store -/

/-- The first `n` frames of two stores bind the same names, and where a value differs, `W` says
why. -/
structure Framed (n : Nat) (W : FrameId → String → Prop) (s s' : Store) : Prop where
  /-- No frame is given up. -/
  size : s.frames.size ≤ s'.frames.size
  names : ∀ id < n, ∀ name, (s'.frames.read id name).isSome = (s.frames.read id name).isSome
  values : ∀ id < n, ∀ name, s'.frames.read id name ≠ s.frames.read id name → W id name

namespace Framed

variable {n : Nat} {W W' : FrameId → String → Prop} {s s₁ s₂ : Store}

theorem of_frames (h : s₁.frames = s.frames) : Framed n W s s₁ := by
  refine ⟨?_, fun _ _ _ => ?_, fun _ _ _ hne => absurd ?_ hne⟩ <;> rw [h]

theorem refl (s : Store) : Framed n W s s :=
  .of_frames rfl

theorem trans (h : Framed n W s s₁) (h' : Framed n W s₁ s₂) : Framed n W s s₂ := by
  refine ⟨Nat.le_trans h.size h'.size, fun id hid name => ?_, fun id hid name hne => ?_⟩
  · exact (h'.names id hid name).trans (h.names id hid name)
  · by_cases hsame : s₁.frames.read id name = s.frames.read id name
    · exact h'.values id hid name fun he => hne (he.trans hsame)
    · exact h.values id hid name hsame

theorem mono (h : Framed n W s s₁) (hW : ∀ id name, W id name → W' id name) :
    Framed n W' s s₁ :=
  ⟨h.size, h.names, fun id hid name hne => hW id name (h.values id hid name hne)⟩

/-- A new frame is not one of the first. -/
theorem push (hn : n ≤ s.frames.size) (b : Bindings Value) :
    Framed n W s { s with frames := s.frames.push b } := by
  have hread : ∀ id < n, ∀ name, (s.frames.push b).read id name = s.frames.read id name :=
    fun id hid name => by
      rw [Frames.read_push, if_neg (Nat.ne_of_lt (Nat.lt_of_lt_of_le hid hn))]
  refine ⟨?_, fun id hid name => ?_, fun id hid name hne => absurd (hread id hid name) hne⟩
  · rw [Frames.size_push]
    exact Nat.le_succ _
  · rw [hread id hid name]

/-- Binding a name in a later frame, or one that is bound already in one of the first. -/
theorem define (hn : n ≤ s.frames.size) {id : FrameId} {name : String} (v : Value)
    (h : id < n → (s.frames.read id name).isSome = true ∧ W id name) :
    Framed n W s { s with frames := s.frames.define id name v } := by
  have hread : ∀ other < n, ∀ key, (s.frames.define id name v).read other key =
      if other = id ∧ key = name then some v else s.frames.read other key := by
    intro other hother key
    by_cases hid : other = id
    · subst hid
      exact Frames.read_define _ (Nat.lt_of_lt_of_le hother hn) other name key v
    · rw [if_neg fun hc => hid hc.1, Frames.read, Frames.frame_define, if_neg fun hc => hid hc.1]
      rfl
  refine ⟨Nat.le_of_eq (Frames.size_define _ _ _ _).symm, fun other hother key => ?_,
    fun other hother key hne => ?_⟩
  · rw [hread other hother key]
    split
    · rename_i hc
      obtain ⟨rfl, rfl⟩ := hc
      rw [(h hother).1]
      rfl
    · rfl
  · rw [hread other hother key] at hne
    split at hne
    · rename_i hc
      obtain ⟨rfl, rfl⟩ := hc
      exact (h hother).2
    · exact absurd rfl hne

/-- What each step does to the first frames is what all of them do. -/
theorem of_steps {R : Store → Store → Prop} (hn : n ≤ s.frames.size)
    (hs : Relation.ReflTransGen R s s₁)
    (hR : ∀ {s s'}, n ≤ s.frames.size → R s s' → Framed n W s s') : Framed n W s s₁ := by
  induction hs with
  | refl => exact .refl s
  | tail _ hstep hbefore => exact hbefore.trans (hR (Nat.le_trans hn hbefore.size) hstep)

end Framed

/-! ## Assignments -/

/-- The frame in a chain that a reference leads to. Without a link it leads to the globals. -/
def Reference.LeadsTo (r : Reference Link) (chain : Chain) (id : FrameId) : Prop :=
  match r.link with
  | some d => chain[d]? = some id
  | none => id = 0

/-- On behalf of a moment, an assignment is evaluated whose reference leads to a variable. -/
inductive Assigns (h : Host) (m : Moment) (id : FrameId) (name : String) : Prop
  | mk {target : Reference Link} {value : Expr Link} {fuel depth : Nat} {chain : Chain}
      {s s' : Store} {v : Value}
      (hm : Relation.ReflTransGen (Calls h) m
        (.run (.expr (.assign target value)) fuel depth chain s))
      (hd : evaluate h fuel depth chain (.assign target value) s = .done v s')
      (hname : target.name.text = name) (hleads : target.LeadsTo chain id) : Assigns h m id name

/-- The assignments on behalf of what a moment leads to are on its own behalf too. -/
theorem Assigns.behind {h : Host} {m m' : Moment} (hc : Calls h m m') {id : FrameId}
    {name : String} (ha : Assigns h m' id name) : Assigns h m id name := by
  obtain ⟨hm, hd, hname, hleads⟩ := ha
  exact ⟨.head hc hm, hd, hname, hleads⟩

/-- What an assignment leaves is what its value leaves, or the variable is changed. -/
theorem assign_leaves {h : Host} {fuel depth : Nat} {chain : Chain} {target : Reference Link}
    {value : Expr Link} {s s' : Store}
    (hl : (evaluate h (fuel + 1) depth chain (.assign target value) s).store? = some s') :
    (evaluate h fuel depth chain value s).store? = some s' ∨
      ∃ v s₁, evaluate h fuel depth chain value s = .done v s₁ ∧
        store chain target v s₁ = .done () s' ∧
        evaluate h (fuel + 1) depth chain (.assign target value) s = .done v s' := by
  rw [evaluate_assign] at hl ⊢
  unfold Action.bind at hl ⊢
  cases hv : evaluate h fuel depth chain value s with
  | done v s₁ =>
    rw [hv] at hl
    dsimp only at hl ⊢
    cases hs : store chain target v s₁ with
    | done u s₂ =>
      rw [hs] at hl
      cases hl
      exact Or.inr ⟨v, s₁, rfl, hs, rfl⟩
    | failed error line s₂ =>
      rw [hs] at hl
      cases hl
      exact Or.inl (by rw [store_failed hs]; rfl)
    | broken | unfinished =>
      rw [hs] at hl
      cases hl
  | failed error line s₁ =>
    rw [hv] at hl
    exact Or.inl hl
  | broken | unfinished =>
    rw [hv] at hl
    cases hl

/-! ## Moments beyond the first frames -/

open Scopes in
/-- What is declared in the scopes around the innermost one is declared completely. -/
theorem Regular.complete_outside {p : Place} {names : List (List String)} (hr : Regular p names)
    {d : Nat} {scope : Scope} (hscope : p.scopes[d]? = some scope) (hd : d ≠ 0) {name : String}
    (hmem : scope.contains name = true) : scope.get? name = some true := by
  obtain ⟨b, hb⟩ := Option.isSome_iff_exists.mp hmem
  cases b with
  | true => exact hb
  | false =>
    obtain ⟨d, rfl⟩ := Nat.exists_eq_succ_of_ne_zero hd
    have htail : scope ∈ p.scopes.tail := by
      rw [← List.getElem?_tail] at hscope
      exact List.mem_of_getElem? hscope
    exact absurd hb (hr.settled_tail scope htail name)

/-- What begins declares nothing in the first `n` frames: its own frame comes later, or it makes a
frame for what it runs. -/
inductive Moment.Beyond (n : Nat) : Moment → Prop
  | run {node : Node Link} {fuel depth : Nat} {chain : Chain} {s : Store}
      (hc : ∀ id, chain.head? = some id → n ≤ id) : Beyond n (.run node fuel depth chain s)
  | block {body : List (Stmt Link)} {fuel depth : Nat} {chain : Chain} {s : Store} :
      Beyond n (.run (.stmt (.block body)) fuel depth chain s)
  | apply {f : Value} {args : List Value} {fuel depth : Nat} {s : Store} :
      Beyond n (.apply f args fuel depth s)
  | invoke {c : Closure} {args : List Value} {fuel depth : Nat} {s : Store} :
      Beyond n (.invoke c args fuel depth s)
  | bind {c : Closure} {o : Object} {s : Store} : Beyond n (.bind c o s)

section Beyond

variable {h : Host} {V : Moment → Prop} {m m' : Moment} {n : Nat} {s s' : Store}

theorem beyond_made {node : Node Link} {fuel depth : Nat} {chain : Chain} {s s₁ : Store}
    (hn : n ≤ s.frames.size) : (Moment.run node fuel depth (s.frames.size :: chain) s₁).Beyond n :=
  .run fun id hid => by
    cases hid
    exact hn

/-- What a moment beyond the first frames leads to is beyond them. -/
theorem Calls.beyond (hc : Calls h m m') (hn : n ≤ m.store.frames.size) (hi : m.Beyond n) :
    m'.Beyond n := by
  cases hc with
  | part _ hpart =>
    cases hi with
    | run hc => exact .run hc
    | block => cases hpart
  | block => exact beyond_made hn
  | body => exact beyond_made hn
  | get | super | construct => exact .bind
  | call => exact .apply
  | closure | initializer => exact .invoke

/-- A declaration beyond the first frames goes to a later one. -/
theorem Moment.Beyond.declared {st : Stmt Link} {fuel depth : Nat} {chain : Chain} {s₀ : Store}
    (hi : (Moment.run (.stmt st) fuel depth chain s₀).Beyond n) {name : String}
    (hname : name ∈ st.declares) {v : Value} (hd : defineIn chain name v s = .done () s')
    (hn : n ≤ s.frames.size) {W : FrameId → String → Prop} : Framed n W s s' := by
  cases hi with
  | run hc =>
    cases chain with
    | nil => cases hd
    | cons id rest =>
      cases hd
      exact .define hn v fun hlt => absurd hlt (Nat.not_lt.mpr (hc id rfl))
  | block => exact absurd hname List.not_mem_nil

/-- An assignment beyond that leads to one of the first frames leads to a name that is bound. -/
theorem Good.stored {target : Reference Link} {value : Expr Link} {fuel depth : Nat}
    {chain : Chain} {s₀ : Store} {v : Value}
    (hg : Good V (.run (.expr (.assign target value)) fuel depth chain s₀))
    (hi : (Moment.run (.expr (.assign target value)) fuel depth chain s₀).Beyond n)
    (hn : n ≤ s₀.frames.size) {W : FrameId → String → Prop} (hs : Framed n W s₀ s)
    (hd : store chain target v s = .done () s')
    (hW : ∀ id, target.LeadsTo chain id → W id target.name.text) : Framed n W s s' := by
  cases hi with
  | run hc =>
  cases hg with
  | @run p levels _ _ _ _ _ hacc hp hlevels hready =>
    obtain ⟨e, hpe, he⟩ := Place.linked_eq_expr hp
    have hregular := hacc.regular
    rw [hpe] at hregular hready
    obtain ⟨raw, hraw, rfl⟩ := hregular.link_eq (by rw [he]; rfl)
    have hn' : n ≤ s.frames.size := Nat.le_trans hn hs.size
    unfold Reference.LeadsTo at hW
    unfold store at hd
    cases hlink : p.scopes.hops? raw.name.text with
    | some d =>
      obtain ⟨scope, hscope, hmem⟩ := Regular.hops?_eq_some hlink
      obtain ⟨id, hid, -, -, hbound⟩ := hready.found hraw hscope
      simp only [hlink, hid] at hd hW
      cases hd
      refine .define hn' v fun hlt => ⟨?_, hW id rfl⟩
      have hd : d ≠ 0 := by
        rintro rfl
        exact Nat.not_le.mpr hlt (hc id (by rw [List.head?_eq_getElem?, hid]))
      rw [hs.names id hlt]
      exact hbound (hregular.complete_outside hscope hd hmem)
    | none =>
      simp only [hlink] at hd hW
      cases hh : s.frames.holder? globals raw.name.text with
      | none =>
        rw [hh] at hd
        cases hd
      | some id =>
        rw [hh] at hd
        cases hd
        have hmem := List.mem_of_find?_eq_some hh
        rw [List.mem_singleton.mp hmem] at hh ⊢
        refine .define hn' v fun _ => ⟨?_, hW 0 rfl⟩
        exact List.find?_some (p := fun id => (s.frames.frame id).contains raw.name.text) hh

/-- What an assignment does to the first frames from beyond. -/
theorem Good.framed_assign {target : Reference Link} {value : Expr Link} {fuel depth : Nat}
    {chain : Chain} (hg : Good V (.run (.expr (.assign target value)) fuel depth chain s))
    (hi : (Moment.run (.expr (.assign target value)) fuel depth chain s).Beyond n)
    (hn : n ≤ s.frames.size)
    (hl : (Moment.run (.expr (.assign target value)) fuel depth chain s).leaves? h = some s')
    (hcalled : ∀ m' s', Calls h (.run (.expr (.assign target value)) fuel depth chain s) m' →
      n ≤ m'.store.frames.size → m'.leaves? h = some s' → Framed n (Assigns h m') m'.store s') :
    Framed n (Assigns h (.run (.expr (.assign target value)) fuel depth chain s)) s s' := by
  rw [Moment.leaves?, Node.run, Outcome.store?_map] at hl
  cases fuel with
  | zero =>
    rw [evaluate] at hl
    cases hl
  | succ fuel =>
    have hc : Calls h (.run (.expr (.assign target value)) (fuel + 1) depth chain s)
      (.run (.expr value) fuel depth chain s) := .part (i := 0) .first rfl
    have hvalue : ∀ s₁, (evaluate h fuel depth chain value s).store? = some s₁ →
        Framed n (Assigns h (.run (.expr (.assign target value)) (fuel + 1) depth chain s))
          s s₁ := by
      intro s₁ hs
      refine (hcalled _ s₁ hc hn ?_).mono fun _ _ => .behind hc
      rw [Moment.leaves?, Node.run, Outcome.store?_map, hs]
    rcases assign_leaves hl with hs | ⟨v, s₁, hv, hs, hd⟩
    · exact hvalue s' hs
    · have hbefore := hvalue s₁ (by rw [hv]; rfl)
      refine hbefore.trans (hg.stored hi hn hbefore hs fun id hleads => ?_)
      exact ⟨.refl, hd, rfl, hleads⟩

/-- **What begins beyond the first frames changes them by assignments only.** -/
theorem Good.framed (hV : ∀ {m m'}, V m → Calls h m m' → V m') (hv : V m) (hg : Good V m)
    (hn : n ≤ m.store.frames.size) (hi : m.Beyond n) (hl : m.leaves? h = some s') :
    Framed n (Assigns h m) m.store s' := by
  -- by induction on the steps allowed: what is called has fewer
  induction hfuel : m.fuel using Nat.strongRecOn generalizing m s' with
  | ind fuel ih =>
    have hcalled : ∀ m' s', Calls h m m' → n ≤ m'.store.frames.size → m'.leaves? h = some s' →
        Framed n (Assigns h m') m'.store s' := fun m' s' hc hn' hl' =>
      ih m'.fuel (hfuel ▸ hc.fuel_lt) (hV hv hc) (hg.calls hV hv hc) hn' (hc.beyond hn hi) hl' rfl
    by_cases hassign : ∃ target value fuel depth chain s,
        m = .run (.expr (.assign target value)) fuel depth chain s
    · obtain ⟨target, value, fuel, depth, chain, s, rfl⟩ := hassign
      exact hg.framed_assign hi hn hl hcalled
    · refine .of_steps hn (Moment.traced hl) fun {s₁ s₂} hn₁ hp => ?_
      cases hp with
      | passes hp =>
        cases hp with
        | called hc hl' => exact (hcalled _ _ hc hn₁ hl').mono fun _ _ => .behind hc
        | aside hf => exact .of_frames hf
        | pushed b => exact .push hn₁ b
      | declared hm hname hd =>
        subst hm
        exact hi.declared hname hd hn₁
      | assigned hm => exact absurd ⟨_, _, _, _, _, _, hm⟩ hassign

end Beyond

end LoxKit
