import LoxKit.Proofs.Session.History

/-!
# Scopes and frames agree

Linking counts scopes, and a run counts frames. Both come to the same number: wherever a session
evaluates a reference there is one frame for each scope that linking has open there, and the frame
that a link leads to was made when the scope of the declaration was entered. It makes no difference
how long ago that was, in which text, and how often the scope was entered since.

Headlines:
* `Agreement`: what agrees at a reference.
* **`Visited.agreement`**: it does at every reference that a session evaluates.
-/

namespace LoxKit

open LoxKit.Action

variable {V : Moment → Prop}

/-- How the frames that a reference finds stand to the scopes that linking has open there. -/
structure Agreement (V : Moment → Prop) (p : Place) (levels : List Level) (r : Reference Link)
    (reads : Bool) (chain : Chain) (s : Store) : Prop where
  account : Account V p levels
  /-- The chain consists of the frames that were made when the scopes were entered. -/
  chain_eq : chain = Level.chain levels
  entered : ∀ level ∈ levels, V level.entered
  /-- There are as many frames before that of the globals as open scopes. -/
  length : chain.length = p.scopes.length + 1
  link_eq : r.link = p.scopes.hops? r.name.text
  /-- A link leads to the innermost scope in which the text has declared the name so far. -/
  linked : ∀ d, r.link = some d → ∃ level, levels[d]? = some level ∧ r.name.text ∈ level.declared ∧
    (∀ i < d, ∀ inner, levels[i]? = some inner → r.name.text ∉ inner.declared) ∧
    chain[d]? = some level.frame ∧ level.frame ≠ 0 ∧ level.frame < s.frames.size ∧
    (reads = true → ∃ v, s.frames.read level.frame r.name.text = some v)
  /-- Without a link no open scope has declared the name so far, and whatever the frames bind, only
  the globals are searched. -/
  unlinked : r.link = none → (∀ level ∈ levels, r.name.text ∉ level.declared) ∧
    follow chain r s = follow globals r s ∧ ∀ v, store chain r v s = store globals r v s

/-- Each level of an account was entered in a moment that counts. -/
theorem Account.entered {p : Place} {levels : List Level} (hacc : Account V p levels) :
    ∀ level ∈ levels, V level.entered := by
  have hdeclare : ∀ {levels : List Level} {names : List String}, (∀ l ∈ levels, V l.entered) →
      ∀ l ∈ Level.declare levels names, V l.entered := by
    intro levels names h l hl
    obtain ⟨l', hl', he⟩ := Level.entered_of_mem_declare hl
    rw [he]
    exact h l' hl'
  induction hacc with
  | text => exact fun _ h => absurd h List.not_mem_nil
  | part _ _ ih => exact hdeclare ih
  | block _ _ hv ih => exact List.forall_mem_cons.mpr ⟨hv, ih⟩
  | function _ _ _ ih => exact hdeclare ih
  | method _ _ _ _ ih => exact hdeclare ih
  | inherited _ _ _ hv ih => exact List.forall_mem_cons.mpr ⟨hv, hdeclare ih⟩
  | bind _ _ _ hv ih => exact List.forall_mem_cons.mpr ⟨hv, ih⟩
  | call _ _ _ hv ih => exact List.forall_mem_cons.mpr ⟨hv, ih⟩

theorem Account.undeclared {p : Place} {levels : List Level} (hacc : Account V p levels)
    {name : String} (hd : p.scopes.hops? name = none) : ∀ level ∈ levels, name ∉ level.declared := by
  rw [hacc.regular.matched.hops?, List.findIdx?_eq_none_iff] at hd
  intro level hlevel
  simpa using hd _ (List.mem_map_of_mem hlevel)

/-- The scopes and the frames agree at a reference in a chain that is ready for it. -/
theorem Good.agrees {e : Expr Link} {fuel depth : Nat} {chain : Chain} {s : Store}
    (hg : Good V (.run (.expr e) fuel depth chain s)) {r : Reference Link}
    (hr : e.reference? = some r) :
    ∃ p levels, p.linked = .expr e ∧ Agreement V p levels r e.reads chain s := by
  cases hg with
  | @run p levels _ _ _ _ _ hacc hp hlevels hready hs =>
    refine ⟨p, levels, hp, ?_⟩
    obtain ⟨e', hpe, rfl⟩ := Place.linked_eq_expr hp
    have hlength := hready.length
    have hentered := hacc.entered
    have hregular := hacc.regular
    rw [hpe] at hregular hready
    obtain ⟨raw, hraw, rfl⟩ := hregular.link_eq hr
    refine ⟨hacc, hlevels, hentered, hlength, rfl, fun d hd => ?_, fun hd => ?_⟩
    · obtain ⟨level, hlevel, hmem, hinner⟩ := hacc.declaring hd
      obtain ⟨scope, hscope, -⟩ := Regular.hops?_eq_some hd
      obtain ⟨id, hid, hpos, hmade, -⟩ := hready.found hraw hscope
      have hframe := Level.getElem?_chain hlevel
      rw [← hlevels, hid] at hframe
      obtain rfl := Option.some.inj hframe
      refine ⟨level, hlevel, hmem, hinner, hid, Nat.ne_of_gt hpos, hmade, fun hreads => ?_⟩
      have hreads' : e'.reads = true := by
        cases e' with
        | assign => exact absurd hreads (by simp [linkExpr, Expr.reads])
        | var | this | super => rfl
        | literal | grouping | unary | binary | logical | call | get | set =>
          exact absurd hraw (by simp [Expr.reference?])
      obtain ⟨id', v, hid', hv⟩ := hregular.bound hready hreads' hraw hd
      rw [hid] at hid'
      obtain rfl := Option.some.inj hid'
      exact ⟨v, hv⟩
    · refine ⟨hacc.undeclared hd, ?_, fun v => ?_⟩
      · unfold follow
        rw [hd]
      · unfold store
        rw [hd]

/-- **Scopes and frames agree at every reference that a session evaluates.** -/
theorem Visited.agreement {h : Host} {verbose : Bool} {limit : Option Int} {turns : List Turn}
    {e : Expr Link} {fuel depth : Nat} {chain : Chain} {s : Store}
    (hv : Visited h (.start verbose limit) turns (.run (.expr e) fuel depth chain s))
    {r : Reference Link} (hr : e.reference? = some r) :
    ∃ p levels, p.linked = .expr e ∧
      Agreement (Visited h (.start verbose limit) turns) p levels r e.reads chain s :=
  hv.good.agrees hr

/-- The reading of the variable in `{ var a; a; }`. -/
def readingMoment : Moment :=
  .run (.expr (.var ⟨⟨"a", ⟨1, 9⟩⟩, some 0⟩)) 5 0 [1, 0]
    { Store.initial with frames := (Store.initial.frames.push .empty).define 1 "a" .nil }

theorem visited_readingMoment :
    Visited ⟨fun _ => 0, 1000⟩ (.start false none) [⟨"{ var a; a; }", false, 9⟩] readingMoment := by
  have hready : ((Session.start false none).compiled "{ var a; a; }").2 = .ready [.block
      [.var ⟨"a", ⟨1, 6⟩⟩ none, .expression (.var ⟨⟨"a", ⟨1, 9⟩⟩, some 0⟩)]] := by cbv
  have hturns : [(⟨"{ var a; a; }", false, 9⟩ : Turn)] = [] ++ ⟨"{ var a; a; }", false, 9⟩ :: [] := rfl
  have hbegins : Visited ⟨fun _ => 0, 1000⟩ (.start false none) [⟨"{ var a; a; }", false, 9⟩] _ :=
    .begins hturns rfl (Prod.ext rfl hready) .first
  have hfirst : Node.run ⟨fun _ => 0, 1000⟩ (.stmt (.var ⟨"a", ⟨1, 6⟩⟩ none)) 7 0 [1, 0]
      { Store.initial with frames := Store.initial.frames.push .empty } =
      .done (.completion .carryOn) readingMoment.store := by
    rw [Node.run, execute]
    rfl
  have hstmts := (hbegins.calls .block).calls (.part (i := 1) (.next .first rfl hfirst rfl) rfl)
  exact (hstmts.calls (.part .first rfl)).calls (.part .first rfl)

theorem agreement_readingMoment :
    ∃ p levels, p.linked = .expr (.var ⟨⟨"a", ⟨1, 9⟩⟩, some 0⟩) ∧
      Agreement (Visited ⟨fun _ => 0, 1000⟩ (.start false none) [⟨"{ var a; a; }", false, 9⟩]) p levels
        ⟨⟨"a", ⟨1, 9⟩⟩, some 0⟩ true [1, 0] readingMoment.store :=
  Visited.agreement visited_readingMoment rfl

end LoxKit
