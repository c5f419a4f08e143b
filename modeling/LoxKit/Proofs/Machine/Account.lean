import LoxKit.Proofs.Machine.Moment
import LoxKit.Proofs.Scope.Place
import LoxKit.Session

/-!
# Accounts of chains

An account says why a place runs in a chain. It lists the scopes around the place from the inside to
the outside, each with the names that the text declares in it before the place, and with the moment
at which the scope was entered: a block, a call, a method made for an object, or the declaration of
a class with a superclass. The frame that is made at that moment is the frame of the scope, and
these frames and the globals are the chain.

An account is built along the text from the outside to the inside, and every rule that enters a
scope has the moment as a premise. `V` is the property of the moments that count.

Headlines:
* `Account`: the rules.
* `Account.regular`: the names in an account are those that linking knows of.
-/

namespace LoxKit

/-- A text that can run, and the statements that are read from it. -/
structure CleanText (text : String) (stmts : List (Stmt Unit)) : Prop where
  scanned : (Tokens.ofText text).issues = []
  read : Grammar.parse (Tokens.ofText text) = ⟨stmts, []⟩
  linked : (linkProgram stmts).issues = []

theorem CleanText.proper {text : String} {stmts : List (Stmt Unit)} (h : CleanText text stmts) :
    ∀ stmt ∈ stmts, stmt.Proper := by
  have hp : ∀ stmt ∈ (Grammar.parse (Tokens.ofText text)).statements, stmt.Proper :=
    Grammar.proper_parse (by rw [h.read])
  rwa [h.read] at hp

/-- A scope that is open where something runs. -/
structure Level where
  /-- The names that the text has declared in it so far. -/
  declared : List String
  /-- When it was entered. -/
  entered : Moment

namespace Level

/-- The frame that was made when the scope was entered. -/
def frame (l : Level) : FrameId :=
  l.entered.store.frames.size

/-- The chain of the frames of some levels and of the globals. -/
def chain (levels : List Level) : Chain :=
  levels.map frame ++ Action.globals

/-- Adds names to the innermost level. -/
def declare : List Level → List String → List Level
  | [], _ => []
  | l :: outer, names => { l with declared := l.declared ++ names } :: outer

@[simp]
theorem chain_nil : chain [] = Action.globals := rfl

@[simp]
theorem chain_cons (l : Level) (levels : List Level) : chain (l :: levels) = l.frame :: chain levels :=
  rfl

@[simp]
theorem chain_declare (levels : List Level) (names : List String) :
    chain (declare levels names) = chain levels := by
  cases levels <;> rfl

theorem getElem?_chain {levels : List Level} {d : Nat} {level : Level}
    (hd : levels[d]? = some level) : (chain levels)[d]? = some level.frame := by
  obtain ⟨hlt, rfl⟩ := List.getElem?_eq_some_iff.mp hd
  rw [chain, List.getElem?_append_left (by rwa [List.length_map]), List.getElem?_map, hd]
  rfl

theorem entered_of_mem_declare {levels : List Level} {names : List String} {l : Level}
    (hl : l ∈ declare levels names) : ∃ l' ∈ levels, l.entered = l'.entered := by
  cases levels with
  | nil => exact absurd hl List.not_mem_nil
  | cons first outer =>
    rcases List.mem_cons.mp hl with rfl | hl
    · exact ⟨first, List.mem_cons_self, rfl⟩
    · exact ⟨l, List.mem_cons_of_mem _ hl, rfl⟩

theorem map_declared_declare (levels : List Level) (names : List String) :
    (declare levels names).map declared = Scopes.declareIn (levels.map declared) names := by
  cases levels <;> rfl

end Level

/-- The rules of accounts. -/
inductive Account (V : Moment → Prop) : Place → List Level → Prop
  /-- The statements of a text stand in no scope but the globals. -/
  | text {text : String} {stmts : List (Stmt Unit)} (h : CleanText text stmts) :
      Account V ⟨.topLevel, [], .stmts stmts⟩ []
  /-- A part of a place stands in its scopes. The text may declare names on the way to it. -/
  | part {p p' : Place} {levels : List Level} {i : Nat} (h : Account V p levels)
      (hp : p.part i = some p') : Account V p' (Level.declare levels (p.declaresAt i))
  /-- The statements of a block that is entered. -/
  | block {p : Place} {levels : List Level} {body : List (Stmt Unit)} {fuel depth : Nat} {s : Store}
      (h : Account V p levels) (hn : p.node = .stmt (.block body))
      (hv : V (.run p.linked fuel depth (Level.chain levels) s)) :
      Account V ⟨p.around, .empty :: p.scopes, .stmts body⟩
        (⟨[], .run p.linked fuel depth (Level.chain levels) s⟩ :: levels)
  /-- A function that is declared. -/
  | function {p : Place} {levels : List Level} {f : Function Unit} {fuel depth : Nat} {s : Store}
      (h : Account V p levels) (hn : p.node = .stmt (.function f))
      (hv : V (.run p.linked fuel depth (Level.chain levels) s)) :
      Account V ⟨{ p.around with function := .function }, p.scopes.add f.name.text, .function f⟩
        (Level.declare levels [f.name.text])
  /-- A method of a class without superclass that is declared. -/
  | method {p : Place} {levels : List Level} {name : Name} {methods : List (Function Unit)}
      {f : Function Unit} {fuel depth : Nat} {s : Store} (h : Account V p levels)
      (hn : p.node = .stmt (.classDecl name none methods)) (hf : f ∈ methods)
      (hv : V (.run p.linked fuel depth (Level.chain levels) s)) :
      Account V ⟨{ methodSurroundings p.around false with function := methodKind f },
          p.scopes.add name.text, .method f⟩ (Level.declare levels [name.text])
  /-- A method of a class with a superclass, for which a scope is entered. -/
  | inherited {p : Place} {levels : List Level} {name : Name} {r : Reference Unit}
      {methods : List (Function Unit)} {f : Function Unit} {fuel depth : Nat} {s : Store}
      (h : Account V p levels) (hn : p.node = .stmt (.classDecl name (some r) methods))
      (hf : f ∈ methods) (hv : V (.run p.linked fuel depth (Level.chain levels) s)) :
      Account V ⟨{ methodSurroundings p.around true with function := methodKind f },
          .single Keyword.super.word :: p.scopes.add name.text, .method f⟩
        (⟨[Keyword.super.word], .run p.linked fuel depth (Level.chain levels) s⟩ ::
          Level.declare levels [name.text])
  /-- A method that is made for an object. -/
  | bind {around : Surroundings} {scopes : Scopes} {f : Function Unit} {levels : List Level}
      {c : Closure} {o : Object} {s : Store} (h : Account V ⟨around, scopes, .method f⟩ levels)
      (hc : .method c.function = Place.linked ⟨around, scopes, .method f⟩)
      (hcap : c.captured = Level.chain levels) (hv : V (.bind c o s)) :
      Account V ⟨around, .single Keyword.this.word :: scopes, .function f⟩
        (⟨[Keyword.this.word], .bind c o s⟩ :: levels)
  /-- The body of a function that is called. -/
  | call {around : Surroundings} {scopes : Scopes} {f : Function Unit} {levels : List Level}
      {c : Closure} {args : List Value} {fuel depth : Nat} {s : Store}
      (h : Account V ⟨around, scopes, .function f⟩ levels)
      (hc : .function c.function = Place.linked ⟨around, scopes, .function f⟩)
      (hcap : c.captured = Level.chain levels) (hv : V (.invoke c args fuel depth s)) :
      Account V ⟨around, (Scopes.introduceAll (.empty :: scopes) f.params).1, .stmts f.body⟩
        (⟨f.params.map Name.text, .invoke c args fuel depth s⟩ :: levels)

/-- The names in an account are those that linking knows of. -/
theorem Account.regular {V : Moment → Prop} {p : Place} {levels : List Level}
    (h : Account V p levels) : Regular p (levels.map Level.declared) := by
  induction h with
  | @text source stmts h =>
    exact ⟨h.linked, h.proper, .nil, Scopes.settled_nil, fun _ _ h => absurd h (by simp), trivial⟩
  | part _ hp ih =>
    rw [Level.map_declared_declare]
    exact ih.part hp
  | block _ hn _ ih => exact ih.block hn
  | function _ hn _ ih =>
    rw [Level.map_declared_declare]
    exact ih.function hn
  | method _ hn hf _ ih =>
    rw [Level.map_declared_declare]
    exact ih.method hn hf
  | inherited _ hn hf _ ih =>
    rw [List.map_cons, Level.map_declared_declare]
    exact ih.method hn hf
  | bind _ _ _ _ ih => exact ih.bind
  | call _ _ _ _ ih => exact ih.call

/-- The level that a number of scopes leads to. -/
theorem Account.declaring {V : Moment → Prop} {p : Place} {levels : List Level} (hacc : Account V p levels)
    {name : String} {d : Nat} (hd : p.scopes.hops? name = some d) :
    ∃ level, levels[d]? = some level ∧ name ∈ level.declared ∧
      ∀ i < d, ∀ inner, levels[i]? = some inner → name ∉ inner.declared := by
  rw [hacc.regular.matched.hops?, List.findIdx?_map] at hd
  obtain ⟨hlt, hmem, hmin⟩ := List.findIdx?_eq_some_iff_getElem.mp hd
  refine ⟨levels[d], List.getElem?_eq_getElem hlt, by simpa using hmem, fun i hi inner hinner => ?_⟩
  obtain ⟨hlt', rfl⟩ := List.getElem?_eq_some_iff.mp hinner
  simpa using hmin i hi

end LoxKit
