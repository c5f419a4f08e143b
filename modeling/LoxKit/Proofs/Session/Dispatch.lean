import LoxKit.Proofs.Machine.Activation
import LoxKit.Proofs.Machine.Trace
import LoxKit.Proofs.Session.History

/-!
# Receivers and superclasses

A superclass reference means the superclass of the class in which it is written, whatever the class
of the receiver is: the class that the declaration found when it ran, even if its name has another
value by now. The receiver is the object that the method around was made for, and the class that the
declaration made is on its lineage. All of this rests on bindings that are never changed.

Headlines:
* `ThisFound`, `SuperFound`: what a receiver and a superclass reference find.
* `Lasting`: no binding of `this` or `super` ever changes.
* **`Session.dispatches`**: all of it is so in every session.
-/

namespace LoxKit

open LoxKit.Action

/-! ## Bindings that last -/

/-- Whatever a frame binds to `this` or `super`, it keeps it. -/
def Lasts (s s' : Store) : Prop :=
  ∀ id v,
    (s.frames.read id Keyword.this.word = some v → s'.frames.read id Keyword.this.word = some v) ∧
    (s.frames.read id Keyword.super.word = some v → s'.frames.read id Keyword.super.word = some v)

theorem Extends.lasts {s s' : Store} (h : Extends s s') : Lasts s s' :=
  fun id v => ⟨h.kept id .this v, h.kept id .super v⟩

theorem bindMethod_extends (c : Closure) (o : Object) (s : Store) {s' : Store}
    (h : (bindMethod c o s).store? = some s') : Extends s s' := by
  cases h
  have hlast : ∀ t : Store, Extends t { t with fresh := t.fresh + 1 } := fun t => .of_frames rfl
  exact (Extends.push s _).trans (hlast _)

section Moments

variable {h : Host} {V : Moment → Prop} {m m' : Moment}

/-- What begins in a moment only lets the store grow. -/
theorem Good.leaves (hV : ∀ {m m'}, V m → Calls h m m' → V m') (hv : V m) (hg : Good V m) {s' : Store}
    (hs' : m.leaves? h = some s') : Extends m.store s' := by
  cases hg with
  | @run p levels n fuel depth chain s hacc hp hlevels hready hs hhold =>
    subst hp
    cases hready with
    | fits hfits =>
      have hr : Running V p levels fuel depth chain s := ⟨hacc, hlevels, hv, hfits, hs, hhold⟩
      exact (((keeps hV fuel).run hr).left hs').1
    | superclass hfits hne =>
      have hmeets := follow_meets hacc.regular (.superclass hfits hne) hs rfl rfl
      simp only [Moment.leaves?, Place.linked, linkExpr, Node.run, Outcome.store?_map,
        Linked.map_tree, linkVar] at hs'
      cases fuel with
      | zero =>
        rw [evaluate] at hs'
        exact absurd hs' (by simp [Outcome.store?])
      | succ fuel =>
        rw [evaluate] at hs'
        exact (hmeets.left hs').1
  | apply hs hf hargs harity => exact (((keeps hV _).apply hv harity hs hf hargs).left hs').1
  | invoke hs hc hargs hlen => exact (((keeps hV _).invoke hv hlen hs hc hargs).left hs').1
  | @bind _ c o s => exact bindMethod_extends c o s hs'

/-- The store has only grown in the moments that a moment leads to. -/
theorem Good.extends (hV : ∀ {m m'}, V m → Calls h m m' → V m') (hv : V m) (hg : Good V m)
    (hc : Calls h m m') : Extends m.store m'.store := by
  have hstep : ∀ {s s'}, Passes h m s s' → Extends s s' := by
    intro s s' hp
    cases hp with
    | called hc hl => exact (hg.calls hV hv hc).leaves hV (hV hv hc) hl
    | aside hf => exact .of_frames hf
    | pushed b => exact .push s b
  have hsteps := hc.traced
  generalize m'.store = s' at hsteps ⊢
  induction hsteps with
  | refl => exact .refl _
  | tail _ hp ih => exact ih.trans (hstep hp)

end Moments

/-- Bindings of `this` and `super` never change in some turns of a session. -/
structure Lasting (h : Host) (session : Session) (turns : List Turn) : Prop where
  /-- From a turn to the beginning of a statement. -/
  begins : ∀ before turn later report program m, turns = before ++ turn :: later →
    turn.checkOnly = false →
    (session.after h before).compiled turn.text = (report, .ready program) →
    Begins h turn.fuel program (session.after h before).store m →
    Lasts (session.after h before).store m.store
  /-- From a moment to those that it leads to. -/
  calls : ∀ m m', Visited h session turns m → Calls h m m' → Lasts m.store m'.store
  /-- From a moment to the store that is left. -/
  leaves : ∀ m s', Visited h session turns m → m.leaves? h = some s' → Lasts m.store s'
  /-- From a turn to the next. -/
  passes : ∀ before turn later, turns = before ++ turn :: later →
    Lasts (session.after h before).store (session.after h (before ++ [turn])).store

section Sessions

variable {h : Host} {verbose : Bool} {limit : Option Int} {turns : List Turn}

theorem Visited.leaves {m : Moment} (hm : Visited h (.start verbose limit) turns m) {s' : Store}
    (hs' : m.leaves? h = some s') : Extends m.store s' :=
  hm.good.leaves .calls hm hs'

/-- The store has only grown when a statement of a program begins. -/
theorem begins_extends {fuel : Nat} {program : List (Stmt Link)} {s : Store} {m : Moment}
    (hb : Begins h fuel program s m)
    (hvisited : ∀ m, Begins h fuel program s m → Visited h (.start verbose limit) turns m) :
    Extends s m.store := by
  induction hb with
  | first => exact .refl _
  | @later stmt stmts s s' m he hb ih =>
    have hfirst : Extends s s' := (hvisited _ .first).leaves (leaves_of_execute he)
    exact hfirst.trans (ih fun m hm => hvisited m (.later he hm))

/-- The store of a session only grows in a turn. -/
theorem after_extends {before later : List Turn} {turn : Turn}
    (ht : turns = before ++ turn :: later) :
    Extends ((Session.start verbose limit).after h before).store
      ((Session.start verbose limit).after h (before ++ [turn])).store := by
  rw [Session.after_append]
  rcases Session.run_left ((Session.start verbose limit).after h before) h turn.fuel turn.text
    turn.checkOnly with hstore | ⟨report, program, hr, hc, hl⟩
  · rw [hstore]
    exact .refl _
  · have hmeets := turn_meets .calls (sound_after _ _ ht) hr turn.fuel
      fun m hm => .begins ht hc hr hm
    exact (hmeets.1.left hl).1

theorem lasting : Lasting h (.start verbose limit) turns where
  begins _ _ _ _ _ _ ht hc hr hb := (begins_extends hb fun _ hm => .begins ht hc hr hm).lasts
  calls _ _ hm hc := (hm.good.extends .calls hm hc).lasts
  leaves _ _ hm hs' := (hm.leaves hs').lasts
  passes _ _ _ ht := (after_extends ht).lasts

end Sessions

/-! ## What is found -/

section Found

variable (h : Host) (V : Moment → Prop) (p : Place) (levels : List Level) (a : Activation)
  (chain : Chain) (s : Store)

/-- A place in a method that was made for a receiver runs in a chain, and finds that receiver. -/
structure Receives : Prop where
  account : Account V p levels
  active : a.Of V p levels
  chain_eq : chain = Level.chain levels
  receiver : s.frames.getAt chain a.inner.length Keyword.this.word = .ok (.object a.receiver)
  /-- The receiver has the method from a class of its lineage. -/
  inherited : ∃ k ∈ a.receiver.ofClass.lineage, k.Has a.method

/-- What is found by naming the receiver. -/
structure ThisFound (target : Reference Link) : Prop extends Receives V p levels a chain s where
  node : p.linked = .expr (.this target)
  value : ∀ fuel depth,
    evaluate h (fuel + 1) depth chain (.this target) s = .done (.object a.receiver) s

/-- What is found by naming a method of the superclass, where `declaration` is the moment in which
the class around began to be declared, `above` the superclass that it found, and `made` the class
that it made. -/
structure SuperFound (target : Reference Link) (method : Name) (declaration : Moment)
    (above made : ClassValue) : Prop extends Receives V p levels a chain s where
  node : p.linked = .expr (.super target method)
  declared : a.Declared V declaration
  founds : Founds declaration above made
  superclass : s.frames.getAt chain (a.inner.length + 1) Keyword.super.word = .ok (.ofClass above)
  lineage : made ∈ a.receiver.ofClass.lineage
  own : made.Has a.method
  /-- The method is looked for from the superclass on. -/
  missing : above.findMethod? method.text = none → ∀ fuel depth,
    evaluate h (fuel + 1) depth chain (.super target method) s =
      .failed (.undefinedProperty method.text) method.pos.line s
  /-- What is found is made for the same receiver. -/
  found : ∀ c, above.findMethod? method.text = some c → ∀ fuel depth, ∃ c' s',
    evaluate h (fuel + 1) depth chain (.super target method) s = .done (.closure c') s' ∧
      c'.function = c.function ∧ c'.isInitializer = c.isInitializer ∧
      s'.frames.getAt c'.captured 0 Keyword.this.word = .ok (.object a.receiver) ∧
      c'.captured.tail = c.captured

end Found

section Moments

variable {h : Host} {V : Moment → Prop} {p : Place} {levels : List Level} {a : Activation}
  {chain : Chain} {s : Store} {d : Nat} {e : Expr Link}

/-- The frame of `this` is the one that was made for the receiver. -/
theorem Activation.Of.hops_this (ha : a.Of V p levels) (hacc : Account V p levels)
    (hd : p.scopes.hops? Keyword.this.word = some d) :
    d = a.inner.length ∧ levels[d]? = some a.level := by
  obtain ⟨l, hl, hmem, hmin⟩ := hacc.declaring hd
  obtain ⟨c, o, s₀, he⟩ := (hacc.rooted l (List.mem_of_getElem? hl)).receiver hmem
  have hlevel : levels[a.inner.length]? = some a.level := by
    rw [ha.levels_eq, List.getElem?_append_right (Nat.le_refl _), Nat.sub_self]
    rfl
  have hle : d ≤ a.inner.length := by
    refine Nat.not_lt.mp fun hlt => hmin _ hlt _ hlevel ?_
    exact List.mem_singleton_self _
  have hge : a.inner.length ≤ d := by
    refine Nat.not_lt.mp fun hlt => ?_
    rw [ha.levels_eq, List.getElem?_append_left hlt] at hl
    exact ha.innermost l (List.mem_of_getElem? hl) c o s₀ he
  have heq := Nat.le_antisymm hle hge
  exact ⟨heq, by rw [heq, hlevel]⟩

/-- A place that can name a receiver finds it. -/
theorem receives (hacc : Account V p levels) (hchain : chain = Level.chain levels)
    (hhold : Level.AllHold s levels) (ha : a.Of V p levels)
    (hd : p.scopes.hops? Keyword.this.word = some d) : Receives V p levels a chain s := by
  obtain ⟨l, c, o, s₀, hl, he, hread, k, hk, hhas, -⟩ := hacc.this_origin hhold hd
  obtain ⟨rfl, hlevel⟩ := ha.hops_this hacc hd
  rw [hlevel] at hl
  cases hl
  cases he
  refine ⟨hacc, ha, hchain, ?_, k, hk, hhas⟩
  rw [hchain]
  exact getAt_eq_ok (Level.getElem?_chain hlevel) hread

theorem linkExpr_eq_this {around : Surroundings} {scopes : Scopes} {e : Expr Unit}
    {target : Reference Link} (he : (linkExpr around scopes e).tree = .this target) :
    ∃ raw, e = .this raw := by
  cases e with
  | this raw => exact ⟨raw, rfl⟩
  | _ => exact absurd he (by simp [linkExpr, Linked.map])

/-- An expression in a class stands in a method that was made for an object. -/
theorem Account.activation_expr {around : Surroundings} {scopes : Scopes} {e : Expr Unit}
    (hacc : Account V ⟨around, scopes, .expr e⟩ levels) (hne : around.enclosingClass ≠ .none) :
    ∃ a : Activation, a.Of V ⟨around, scopes, .expr e⟩ levels := by
  rcases hacc.activation with ⟨f, hf⟩ | hnone | ha
  · exact absurd hf (by simp)
  · exact absurd hnone hne
  · exact ha

theorem Good.finds_this {target : Reference Link} {fuel depth : Nat}
    (hg : Good V (.run (.expr (.this target)) fuel depth chain s)) :
    ∃ p levels a, ThisFound h V p levels a chain s target := by
  cases hg with
  | @run p levels _ _ _ _ _ hacc hp hlevels hready hs hhold =>
    obtain ⟨e, hpe, he⟩ := Place.linked_eq_expr hp
    obtain ⟨raw, rfl⟩ := linkExpr_eq_this he
    have hregular := hacc.regular
    rw [hpe] at hregular
    obtain ⟨hlink, hname⟩ := hregular.linked_this
    obtain ⟨d, hd⟩ := hregular.this_link rfl
    obtain ⟨a, ha⟩ := Account.activation_expr (hpe ▸ hacc) hregular.enclosing_this
    rw [← hpe] at ha
    have hreceives := receives hacc hlevels hhold ha hd
    refine ⟨p, levels, a, hreceives, hp, fun fuel depth => ?_⟩
    have htarget : target = ⟨raw.name, some d⟩ := by
      rw [hlink, hname, hd] at he
      injection he with he
      exact he.symm
    have hget := hreceives.receiver
    rw [← (ha.hops_this hacc hd).1] at hget
    rw [evaluate, htarget]
    unfold follow
    dsimp only
    rw [hname, hget]
    rfl

theorem Good.finds_super {target : Reference Link} {method : Name} {fuel depth : Nat}
    (hg : Good V (.run (.expr (.super target method)) fuel depth chain s)) :
    ∃ p levels a declaration above made,
      SuperFound h V p levels a chain s target method declaration above made := by
  cases hg with
  | @run p levels _ _ _ _ _ hacc hp hlevels hready hs hhold =>
    obtain ⟨e, hpe, he⟩ := Place.linked_eq_expr hp
    obtain ⟨raw, rfl, htarget⟩ := linkExpr_eq_super he
    have hregular := hacc.regular
    rw [hpe] at hregular
    have henclosing := hregular.enclosing_super
    obtain ⟨d, hthis, hsuper⟩ := hregular.super_link rfl
    obtain ⟨a, ha⟩ := Account.activation_expr (hpe ▸ hacc) (by rw [henclosing]; simp)
    rw [← hpe] at ha
    have hreceives := receives hacc hlevels hhold ha hthis
    obtain ⟨hd, hlevel⟩ := ha.hops_this hacc hthis
    obtain ⟨l, l', c, o, s₀, above, made, hl, hl', hentered, hfounds, hread, hread', hlineage, hown⟩ :=
      hacc.super_origin hhold hthis hsuper
    rw [hlevel] at hl
    cases hl
    cases hentered
    obtain ⟨l'', hl'', hdeclared⟩ := ha.declared henclosing
    have hsame : some l'' = some l' := by
      rw [← hl'', ← hl', hd, ha.levels_eq, List.getElem?_append_right (Nat.le_add_right _ 1),
        Nat.add_sub_cancel_left, List.head?_eq_getElem?]
      rfl
    cases hsame
    have hget' : s.frames.getAt chain (d + 1) Keyword.super.word = .ok (.ofClass above) := by
      rw [hlevels]
      exact getAt_eq_ok (Level.getElem?_chain hl') hread'
    have hname : raw.name.text = Keyword.super.word := by
      cases hregular.proper with
      | super _ ht => exact ht
    have hlink : target.link = some (d + 1) := by rw [htarget, hname, hsuper]
    have hget := hreceives.receiver
    rw [← hd] at hget
    refine ⟨p, levels, a, l'.entered, above, made, hreceives, hp, hdeclared, hfounds, hd ▸ hget',
      hlineage, hown, fun hnone fuel depth => ?_, fun c hc fuel depth => ?_⟩
    · rw [evaluate_super hlink hget' hget, hnone]
    · rw [evaluate_super hlink hget' hget, hc]
      exact ⟨_, _, rfl, rfl, rfl, getAt_eq_ok rfl (read_push_single _ _ _), rfl⟩

end Moments

/-- **A superclass reference means the superclass of the class around, a receiver the object that the
method around was made for, and neither binding ever changes.** -/
theorem Session.dispatches (h : Host) (verbose : Bool) (limit : Option Int) (turns : List Turn) :
    (∀ target fuel depth chain s,
      Visited h (.start verbose limit) turns (.run (.expr (.this target)) fuel depth chain s) →
      ∃ p levels a,
        ThisFound h (Visited h (.start verbose limit) turns) p levels a chain s target) ∧
    (∀ target method fuel depth chain s,
      Visited h (.start verbose limit) turns (.run (.expr (.super target method)) fuel depth chain s) →
      ∃ p levels a declaration above made,
        SuperFound h (Visited h (.start verbose limit) turns) p levels a chain s target method
          declaration above made) ∧
    Lasting h (.start verbose limit) turns :=
  ⟨fun _ _ _ _ _ hm => hm.good.finds_this, fun _ _ _ _ _ _ hm => hm.good.finds_super, lasting⟩

/-- A class whose initializer names a method of its superclass is made and called. -/
def namingText : String := "class A{m(){}}class B<A{init(){super.m;}}B();"

def namingInit : Function Link :=
  .mk ⟨"init", ⟨1, 24⟩⟩ [] [.expression (.super ⟨⟨"super", ⟨1, 31⟩⟩, some 2⟩ ⟨"m", ⟨1, 37⟩⟩)]

theorem compiled_namingText : ((Session.start false none).compiled namingText).2 = .ready
    [.classDecl ⟨"A", ⟨1, 6⟩⟩ none [.mk ⟨"m", ⟨1, 8⟩⟩ [] []],
      .classDecl ⟨"B", ⟨1, 20⟩⟩ (some ⟨⟨"A", ⟨1, 22⟩⟩, none⟩) [namingInit],
      .expression (.call (.var ⟨⟨"B", ⟨1, 41⟩⟩, none⟩) [] ⟨1, 43⟩)] := by
  unfold namingText
  cbv

def namedClass : ClassValue :=
  .mk 1 "A" none (Bindings.empty.set "m" ⟨0, .mk ⟨"m", ⟨1, 8⟩⟩ [] [], [0], false⟩)

def namingClass : ClassValue :=
  .mk 3 "B" (some namedClass) (Bindings.empty.set "init" ⟨2, namingInit, [1, 0], true⟩)

def namedStore : Store :=
  { Store.initial with
    frames := (Store.initial.frames.define 0 "A" .nil).define 0 "A" (.ofClass namedClass)
    fresh := 2 }

def namingStore : Store :=
  { namedStore with
    frames := ((namedStore.frames.define 0 "B" .nil).push
      (Bindings.empty.set "super" (.ofClass namedClass))).define 0 "B" (.ofClass namingClass)
    fresh := 4 }

/-- The session comes to the superclass reference. -/
theorem visited_naming : ∃ fuel depth chain s,
    Visited ⟨fun _ => 0, 1000⟩ (.start false none) [⟨namingText, false, 9⟩]
      (.run (.expr (.super ⟨⟨"super", ⟨1, 31⟩⟩, some 2⟩ ⟨"m", ⟨1, 37⟩⟩)) fuel depth chain s) := by
  have hturns : [(⟨namingText, false, 9⟩ : Turn)] = [] ++ ⟨namingText, false, 9⟩ :: [] := rfl
  have hfirst : execute ⟨fun _ => 0, 1000⟩ 9 0 globals
      (.classDecl ⟨"A", ⟨1, 6⟩⟩ none [.mk ⟨"m", ⟨1, 8⟩⟩ [] []]) Store.initial =
        .done .carryOn namedStore := by
    rw [execute]
    rfl
  have hsecond : execute ⟨fun _ => 0, 1000⟩ 9 0 globals
      (.classDecl ⟨"B", ⟨1, 20⟩⟩ (some ⟨⟨"A", ⟨1, 22⟩⟩, none⟩) [namingInit]) namedStore =
        .done .carryOn namingStore := by
    rw [execute]
    rfl
  have hbegins : Visited ⟨fun _ => 0, 1000⟩ (.start false none) [⟨namingText, false, 9⟩] _ :=
    .begins hturns rfl (Prod.ext rfl compiled_namingText) (.later hfirst (.later hsecond .first))
  have hcallee : evaluate ⟨fun _ => 0, 1000⟩ 7 0 [0] (.var ⟨⟨"B", ⟨1, 41⟩⟩, none⟩) namingStore =
      .done (.ofClass namingClass) namingStore := by
    rw [evaluate]
    rfl
  have hargs : evaluateAll ⟨fun _ => 0, 1000⟩ 7 0 [0] [] namingStore = .done [] namingStore := by
    rw [evaluateAll]
  have hcall := hbegins.calls (.part (i := 0) .first rfl)
  have happly := hcall.calls (.call hcallee hargs rfl (by decide))
  have hbody := (happly.calls (.initializer rfl rfl)).calls .body
  exact ⟨_, _, _, _, (hbody.calls (.part (i := 0) .first rfl)).calls (.part (i := 0) .first rfl)⟩

/-- The superclass reference means `A`, as its class declaration found it. -/
theorem dispatches_naming : ∃ p levels a chain s declaration above made,
    SuperFound ⟨fun _ => 0, 1000⟩
      (Visited ⟨fun _ => 0, 1000⟩ (.start false none) [⟨namingText, false, 9⟩]) p levels a chain s
      ⟨⟨"super", ⟨1, 31⟩⟩, some 2⟩ ⟨"m", ⟨1, 37⟩⟩ declaration above made := by
  obtain ⟨fuel, depth, chain, s, hv⟩ := visited_naming
  obtain ⟨p, levels, a, declaration, above, made, hfound⟩ :=
    (Session.dispatches ⟨fun _ => 0, 1000⟩ false none [⟨namingText, false, 9⟩]).2.1 _ _ _ _ _ _ hv
  exact ⟨p, levels, a, chain, s, declaration, above, made, hfound⟩

end LoxKit
