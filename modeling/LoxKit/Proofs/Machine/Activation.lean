import LoxKit.Proofs.Machine.Origin

/-!
# Methods that run

A place in a class belongs to one method of the text, whatever blocks and functions lie between. If
it runs, then the method was made for an object and called, and its account says when: the levels
inside of that of `this` are those that were entered since the call, and the level just outside, if
the class has a superclass, was entered when the class was declared.

Headlines:
* `Activation`, `Activation.Of`: a method that was made for an object and called, and the places in
  it.
* `Account.activation`: every place in a class that runs is in one.
* `Activation.Of.declared`: the declaration of the class around the method.
-/

namespace LoxKit

open LoxKit.Action

/-- The places inside of a function, at any depth of blocks and functions within it. Classes that are
declared there have places of their own. -/
inductive Within (home : Place) : Place → Prop
  | here : Within home home
  | part {p p' : Place} {i : Nat} (h : Within home p) (hp : p.part i = some p') : Within home p'
  | block {p : Place} {body : List (Stmt Unit)} (h : Within home p)
      (hn : p.node = .stmt (.block body)) : Within home ⟨p.around, .empty :: p.scopes, .stmts body⟩
  | function {p : Place} {f : Function Unit} (h : Within home p) (hn : p.node = .stmt (.function f)) :
      Within home ⟨{ p.around with function := .function }, p.scopes.add f.name.text, .function f⟩
  | body {around : Surroundings} {scopes : Scopes} {f : Function Unit}
      (h : Within home ⟨around, scopes, .function f⟩) :
      Within home ⟨around, (Scopes.introduceAll (.empty :: scopes) f.params).1, .stmts f.body⟩

theorem Place.around_part {p p' : Place} {i : Nat} (hp : p.part i = some p') :
    p'.around = p.around := by
  obtain ⟨n, -, rfl⟩ := Place.part_eq_some.mp hp
  rfl

/-- The class around a place stays the same inside of a function. -/
theorem Within.enclosingClass {home p : Place} (h : Within home p) :
    p.around.enclosingClass = home.around.enclosingClass := by
  induction h with
  | here => rfl
  | part _ hp ih => rw [Place.around_part hp, ih]
  | block _ _ ih => exact ih
  | function _ _ ih => exact ih
  | body _ ih => exact ih

/-- A method that was made for an object. -/
structure Activation where
  /-- What linking finds around the method. -/
  around : Surroundings
  scopes : Scopes
  /-- The method in the text. -/
  function : Function Unit
  /-- The method of the class. -/
  method : Closure
  receiver : Object
  /-- The store in which the method was made for the receiver. -/
  bound : Store
  /-- The levels around the method. -/
  outer : List Level
  /-- The levels entered since it was called. -/
  inner : List Level

namespace Activation

/-- The place of the method, where it is made for an object. -/
def home (a : Activation) : Place :=
  ⟨a.around, a.scopes, .method a.function⟩

/-- The place of the method, where it can be called. -/
def callable (a : Activation) : Place :=
  ⟨a.around, .single Keyword.this.word :: a.scopes, .function a.function⟩

/-- The level of `this`. -/
def level (a : Activation) : Level :=
  ⟨[Keyword.this.word], .bind a.method a.receiver a.bound⟩

/-- A place inside of a method that was made for an object. -/
structure Of (V : Moment → Prop) (a : Activation) (p : Place) (levels : List Level) : Prop where
  account : Account V a.home a.outer
  within : Within a.callable p
  visited : V (.bind a.method a.receiver a.bound)
  linked : .method a.method.function = a.home.linked
  captured : a.method.captured = Level.chain a.outer
  levels_eq : levels = a.inner ++ a.level :: a.outer
  /-- No other method was made for an object in between. -/
  innermost : ∀ l ∈ a.inner, ∀ c o s, l.entered ≠ .bind c o s
  /-- The function that was called first is the one that was made for the receiver. -/
  called : (a.inner = [] ∧ p = a.callable) ∨
    ∃ l c args fuel depth s, a.inner.getLast? = some l ∧ l.entered = .invoke c args fuel depth s ∧
      V l.entered ∧ c.function = a.method.function ∧
      c.captured = a.bound.frames.size :: a.method.captured

end Activation

theorem Level.getLast?_declare {levels : List Level} {l : Level} (h : levels.getLast? = some l)
    (names : List String) :
    ∃ l', (Level.declare levels names).getLast? = some l' ∧ l'.entered = l.entered := by
  cases levels with
  | nil => exact absurd h (by simp)
  | cons first outer =>
    cases outer with
    | nil =>
      cases h
      exact ⟨_, rfl, rfl⟩
    | cons second outer => exact ⟨l, h, rfl⟩

namespace Activation.Of

variable {V : Moment → Prop} {a : Activation} {p p' : Place} {levels : List Level}

/-- Behind the call, names are declared since the call. -/
theorem declare (h : a.Of V p levels) (hp : ∀ f, p.node ≠ .function f)
    (hw : Within a.callable p') (names : List String) :
    Activation.Of V { a with inner := Level.declare a.inner names } p' (Level.declare levels names) := by
  rcases h.called with ⟨-, hpc⟩ | ⟨l, c, args, fuel, depth, s, hl, he, hv, hf, hc⟩
  · exact absurd (congrArg Place.node hpc) (hp _)
  · obtain ⟨l', hl', he'⟩ := Level.getLast?_declare hl names
    refine ⟨h.account, hw, h.visited, h.linked, h.captured, ?_, fun l hl => ?_, Or.inr ?_⟩
    · rw [h.levels_eq]
      cases hi : a.inner with
      | nil => exact absurd hl (by rw [hi]; simp)
      | cons => rfl
    · obtain ⟨l₀, hl₀, he₀⟩ := Level.entered_of_mem_declare hl
      rw [he₀]
      exact h.innermost l₀ hl₀
    · exact ⟨l', c, args, fuel, depth, s, hl', he'.trans he, he' ▸ hv, hf, hc⟩

/-- Behind the call, a scope is entered since the call. -/
theorem enter (h : a.Of V p levels) (hp : a.inner ≠ []) (hw : Within a.callable p') {l : Level}
    (hl : ∀ c o s, l.entered ≠ .bind c o s) :
    Activation.Of V { a with inner := l :: a.inner } p' (l :: levels) := by
  rcases h.called with ⟨hnil, -⟩ | ⟨l', c, args, fuel, depth, s, hlast, he⟩
  · exact absurd hnil hp
  · refine ⟨h.account, hw, h.visited, h.linked, h.captured, ?_,
      List.forall_mem_cons.mpr ⟨hl, h.innermost⟩, Or.inr ?_⟩
    · rw [h.levels_eq]
      rfl
    · exact ⟨l', c, args, fuel, depth, s, by rw [List.getLast?_cons, hlast]; rfl, he⟩

theorem inner_ne_nil (h : a.Of V p levels) (hp : ∀ f, p.node ≠ .function f) : a.inner ≠ [] := by
  rcases h.called with ⟨-, hpc⟩ | ⟨l, _, _, _, _, _, hl, _⟩
  · exact absurd (congrArg Place.node hpc) (hp _)
  · rintro hnil
    rw [hnil] at hl
    exact absurd hl (by simp)

/-- The body of a function that is called. -/
theorem call {around : Surroundings} {scopes : Scopes} {f : Function Unit}
    (h : a.Of V ⟨around, scopes, .function f⟩ levels) {c : Closure}
    (hc : .function c.function = Place.linked ⟨around, scopes, .function f⟩)
    (hcap : c.captured = Level.chain levels) {args : List Value} {fuel depth : Nat} {s : Store}
    (hv : V (.invoke c args fuel depth s)) :
    Activation.Of V { a with inner := ⟨f.params.map Name.text, .invoke c args fuel depth s⟩ :: a.inner }
      ⟨around, (Scopes.introduceAll (.empty :: scopes) f.params).1, .stmts f.body⟩
      (⟨f.params.map Name.text, .invoke c args fuel depth s⟩ :: levels) := by
  have hinvoke : ∀ c' o s', Moment.invoke c args fuel depth s ≠ .bind c' o s' :=
    fun _ _ _ he => absurd he (by simp)
  rcases h.called with ⟨hnil, hpc⟩ | hlast
  · refine ⟨h.account, .body h.within, h.visited, h.linked, h.captured, ?_,
      List.forall_mem_cons.mpr ⟨hinvoke, h.innermost⟩, Or.inr ?_⟩
    · rw [h.levels_eq]
      rfl
    · rw [hnil]
      refine ⟨_, c, args, fuel, depth, s, rfl, rfl, hv, ?_, ?_⟩
      · rw [hpc] at hc
        have hlinked := h.linked
        simp only [callable, home, Place.linked, Node.function.injEq, Node.method.injEq] at hc hlinked
        rw [hc, hlinked]
      · rw [hcap, h.levels_eq, hnil, h.captured]
        rfl
  · refine h.enter (fun hnil => ?_) (.body h.within) hinvoke
    obtain ⟨l, _, _, _, _, _, hl, _⟩ := hlast
    rw [hnil] at hl
    exact absurd hl (by simp)

end Activation.Of

/-- Every place in a class that runs is in a method that was made for an object. -/
theorem Account.activation {V : Moment → Prop} {p : Place} {levels : List Level}
    (hacc : Account V p levels) :
    (∃ f, p.node = .method f) ∨ p.around.enclosingClass = .none ∨
      ∃ a : Activation, a.Of V p levels := by
  induction hacc with
  | text => exact Or.inr (Or.inl rfl)
  | @part p p' levels i _ hp ih =>
    obtain ⟨n, hn, -⟩ := Place.part_eq_some.mp hp
    rcases ih with ⟨f, hf⟩ | hnone | ⟨a, ha⟩
    · rw [hf] at hn
      exact absurd hn (by simp [Node.part])
    · exact Or.inr (Or.inl (by rw [Place.around_part hp, hnone]))
    · refine Or.inr (Or.inr ⟨_, ha.declare (fun f hf => ?_) (.part ha.within hp) _⟩)
      rw [hf] at hn
      exact absurd hn (by simp [Node.part])
  | block _ hn _ ih =>
    rcases ih with ⟨f, hf⟩ | hnone | ⟨a, ha⟩
    · exact absurd (hn.symm.trans hf) (by simp)
    · exact Or.inr (Or.inl hnone)
    · have hne : a.inner ≠ [] :=
        ha.inner_ne_nil fun f hf => absurd (hn.symm.trans hf) (by simp)
      exact Or.inr (Or.inr ⟨_, ha.enter hne (.block ha.within hn) fun _ _ _ he =>
        absurd he (by simp)⟩)
  | function _ hn _ ih =>
    rcases ih with ⟨f, hf⟩ | hnone | ⟨a, ha⟩
    · exact absurd (hn.symm.trans hf) (by simp)
    · exact Or.inr (Or.inl hnone)
    · refine Or.inr (Or.inr ⟨_, ha.declare (fun f hf => ?_) (.function ha.within hn) _⟩)
      exact absurd (hn.symm.trans hf) (by simp)
  | method => exact Or.inl ⟨_, rfl⟩
  | inherited => exact Or.inl ⟨_, rfl⟩
  | @bind around scopes f levels c o s h hc hcap hv _ =>
    exact Or.inr (Or.inr ⟨⟨around, scopes, f, c, o, s, levels, []⟩, h, .here, hv, hc, hcap, rfl,
      fun _ hl => absurd hl List.not_mem_nil, Or.inl ⟨rfl, rfl⟩⟩)
  | call _ hc hcap hv ih =>
    rcases ih with ⟨f, hf⟩ | hnone | ⟨a, ha⟩
    · exact absurd hf (by simp)
    · exact Or.inr (Or.inl hnone)
    · exact Or.inr (Or.inr ⟨_, ha.call hc hcap hv⟩)

/-! ## The class around a method -/

/-- The declaration of the class in which a method stands, when it ran. -/
inductive Activation.Declared (V : Moment → Prop) (a : Activation) : Moment → Prop
  | mk {q : Place} {levels : List Level} {name : Name} {r : Reference Unit}
      {methods : List (Function Unit)} {fuel depth : Nat} {s : Store} (hq : Account V q levels)
      (hn : q.node = .stmt (.classDecl name (some r) methods)) (hf : a.function ∈ methods)
      (hv : V (.run q.linked fuel depth (Level.chain levels) s))
      (ha : a.around = { methodSurroundings q.around true with function := methodKind a.function })
      (hs : a.scopes = .single Keyword.super.word :: q.scopes.add name.text)
      (ho : a.outer = ⟨[Keyword.super.word], .run q.linked fuel depth (Level.chain levels) s⟩ ::
        Level.declare levels [name.text]) :
      Declared V a (.run q.linked fuel depth (Level.chain levels) s)

/-- In a class with a superclass, the level just outside of that of `this` is that of the class. -/
theorem Activation.Of.declared {V : Moment → Prop} {a : Activation} {p : Place}
    {levels : List Level} (h : a.Of V p levels) (hp : p.around.enclosingClass = .subclass) :
    ∃ l, a.outer.head? = some l ∧ a.Declared V l.entered := by
  have hclass : a.around.enclosingClass = .subclass := h.within.enclosingClass.symm.trans hp
  have hacc : Account V ⟨a.around, a.scopes, .method a.function⟩ a.outer := h.account
  obtain ⟨around, scopes, f, method, receiver, bound, outer, inner⟩ := a
  generalize hplace : (⟨around, scopes, .method f⟩ : Place) = q at hacc
  cases hacc with
  | text => exact absurd hplace (by simp)
  | part _ hpart =>
    obtain ⟨n, hn, hq⟩ := Place.part_eq_some.mp hpart
    have hruns := Node.part_runs hn
    rw [hq] at hplace
    have hnode : Node.method f = n := congrArg Place.node hplace
    rw [← hnode] at hruns
    exact absurd hruns (by simp [Node.runs])
  | block => exact absurd hplace (by simp)
  | function => exact absurd hplace (by simp)
  | method =>
    have haround := congrArg Place.around hplace
    dsimp only at haround
    rw [haround] at hclass
    exact absurd hclass (by simp [methodSurroundings])
  | inherited hq hn hf hv =>
    cases hplace
    exact ⟨_, rfl, .mk hq hn hf hv rfl rfl rfl⟩
  | bind => exact absurd hplace (by simp)
  | call => exact absurd hplace (by simp)

end LoxKit
