import LoxKit.Proofs.Alignment.Loops
import LoxKit.Proofs.Alignment.Same
import LoxKit.Proofs.Session.History

/-!
# Loops

The parser knows no for statements: it makes a block and a while loop of each. Wherever a session
comes to such a loop, the loop does what the for statement says when it is read directly, with one
scope for all of it.

Headlines:
* `LoopMeaning`: what the loop has to do with the for statement.
* **`Session.loops_mean`**: every loop of a session means its for statement.
-/

namespace LoxKit

open LoxKit.Action Filter

/-! ## Statements and their scopes -/

/-- What is read as a statement declares nothing. -/
theorem Grammar.Phrase.declares_eq_nil {dangling : Bool} {ts : List Token} {stmt : RawStmt}
    {is : List Issue} (h : Phrase (.statement dangling) ts stmt is) : stmt.declares = [] := by
  cases h with
  | expression he =>
    obtain ⟨-, -⟩ := he
    rfl
  | @forDo _ _ _ _ _ _ _ _ initializer _ increment =>
    cases initializer <;> cases increment <;> rfl
  | _ => rfl

namespace Scopes

theorem hops?_empty_ne_zero (scopes : Scopes) (name : String) :
    Scopes.hops? (.empty :: scopes) name ≠ some 0 := by
  rw [hops?_empty_cons]
  simp

end Scopes

/-- What runs never stands directly in the scope of `super`. -/
theorem Account.super_ne_zero {V : Moment → Prop} {p : Place} {levels : List Level}
    (h : Account V p levels) (hruns : p.node.runs = true) :
    p.scopes.hops? Keyword.super.word ≠ some 0 := by
  induction h with
  | text => exact fun h => absurd h (by simp [Scopes.hops?])
  | @part p p' levels i h hp ih =>
    obtain ⟨n, hn, rfl⟩ := Place.part_eq_some.mp hp
    have hrunsp : p.node.runs = true := by
      cases hnode : p.node with
      | function | method =>
        rw [hnode] at hn
        exact absurd hn (by simp [Node.part])
      | _ => rfl
    rcases Place.scopesAt_cases h.regular.proper i with ⟨name, _, -, -, hplain, hs, -⟩ | ⟨hs, hplain⟩
    · simp only [hs, Scopes.hops?_declare hplain]
      exact ih hrunsp
    · simp only [hs, Scopes.hops?_addAll hplain]
      exact ih hrunsp
  | block => exact Scopes.hops?_empty_ne_zero _ _
  | function | method | inherited | bind => exact absurd hruns (by simp [Node.runs])
  | @call _ _ f _ _ _ _ _ _ h =>
    have hf : f.Proper := h.regular.proper
    have hplain : ∀ n ∈ f.params.map Name.text, Plain n := List.forall_mem_map.mpr hf.plain_params
    rw [Scopes.introduceAll_fst, Scopes.hops?_addAll hplain]
    exact Scopes.hops?_empty_ne_zero _ _

/-! ## Loops -/

/-- The scopes in which the loop that stands for a for statement has its condition. -/
def ForStatement.loopScopes (around : Surroundings) (scopes : Scopes) (f : ForStatement Unit) :
    Scopes :=
  f.initializer.elim scopes fun st => (linkStmt around (.empty :: scopes) st).scopes

/-- What the loop at a place has to do with the for statement that it stands for, where it begins to
run in a chain and a store. -/
structure LoopMeaning (h : Host) (p : Place) (f : ForStatement Unit) (depth : Nat) (chain : Chain)
    (s : Store) : Prop where
  /-- With enough steps both have printed the same and end in the same way, and every variable and
  every object that was there before has twins for values. -/
  same : ∀ᶠ fuel in atTop, InStep (.upTo s) (fun P => CompletionTwin P)
    (execute h fuel depth chain (linkStmt p.around p.scopes f.desugared).tree s)
    ((f.link p.around p.scopes).run h fuel depth chain s)
  /-- So it is inside of what is read directly itself, where chain and store are not the same. -/
  inside : ∀ P scopes' chain' s', Aligned P p.scopes chain scopes' chain' → Twins P s s' →
    ∀ᶠ fuel in atTop, InStep P (fun P => CompletionTwin P)
      (execute h fuel depth chain (linkStmt p.around p.scopes f.desugared).tree s)
      ((f.link p.around scopes').run h fuel depth chain' s')
  /-- Whatever follows cannot tell what they leave apart. -/
  onward : ∀ P t t', .upTo s ≤ P → Twins P t t' → ∀ names sts,
    Regular ⟨p.around, p.scopes, .stmts sts⟩ names → ∀ fuel,
    InStep P (fun P => CompletionTwin P)
      (executeAll h fuel depth chain (linkStmts p.around p.scopes sts).tree t)
      (executeAll h fuel depth chain (linkStmts p.around p.scopes sts).tree t')
  /-- The increment is linked in the scopes of the condition and one without names. What the body
  declares is not there. -/
  increment : ∀ e, f.increment = some e →
    (linkStmt p.around (f.loopScopes p.around p.scopes) f.loop).tree =
      .whileDo (linkExpr p.around (f.loopScopes p.around p.scopes)
          (f.condition.getD (Grammar.alwaysTrue f.keyword))).tree
        (.block [(linkStmt p.around (.empty :: f.loopScopes p.around p.scopes) f.body).tree,
          .expression (linkExpr p.around (.empty :: f.loopScopes p.around p.scopes) e).tree])
  /-- So its names lead one scope further than in the condition, to the same declarations. -/
  names : ∀ name, Scopes.hops? (.empty :: f.loopScopes p.around p.scopes) name =
    ((f.loopScopes p.around p.scopes).hops? name).map (· + 1)
  /-- Behind the loop the scopes are those before it. -/
  after : (linkStmt p.around p.scopes f.desugared).scopes = p.scopes

section Meaning

variable {V : Moment → Prop} {p : Place} {levels : List Level} {fuel depth : Nat} {chain : Chain}
  {s : Store} {f : ForStatement Unit}

theorem ForStatement.declares_desugared (f : ForStatement Unit) : f.desugared.declares = [] := by
  rw [desugared_eq]
  cases f.initializer <;> rfl

/-- The loop at a place means the for statement. -/
theorem Running.loopMeaning (h : Host) (hr : Running V p levels fuel depth chain s)
    (hn : p.node = .stmt f.desugared) (hd : f.body.declares = []) :
    LoopMeaning h p f depth chain s := by
  obtain ⟨around, scopes, node⟩ := p
  cases hn
  have hregular := hr.account.regular
  have hbody := ForStatement.proper_body hregular.proper
  have hsuper := hr.account.super_ne_zero rfl
  have haligned := hr.fits.aligned hr.sound.globals
  have hflush := hr.fits.flush hr.sound.globals
  refine ⟨?_, ?_, ?_, ?_, Scopes.hops?_empty_cons _, ?_⟩
  · exact ForStatement.desugared_inStep hregular hd hsuper haligned hr.sound.twins
  · exact fun P scopes' chain' s' ha hs => ForStatement.desugared_inStep hregular hd hsuper ha hs
  · intro P t t' hP ht names sts hsts fuel
    exact (abreast h fuel).executeAll hsts (hflush.mono hP) ht
  · intro e he
    simp only [ForStatement.loop, ForStatement.loopBody, he, Option.elim_some, linkStmt, linkStmts,
      scopes_linkStmt_guarded hbody hd]
  · exact scopes_linkStmt_guarded hregular.proper f.declares_desugared scopes

end Meaning

/-- The statement `for (var on = true; on; on = false) print on;`. -/
def ForStatement.once : ForStatement Unit where
  keyword := .start
  initializer := some (.var ⟨"on", ⟨1, 9⟩⟩
    (some (.literal (.bool true) (Keyword.true.token ⟨1, 14⟩))))
  condition := some (.var ⟨⟨"on", ⟨1, 20⟩⟩, ()⟩)
  increment := some (.assign ⟨⟨"on", ⟨1, 24⟩⟩, ()⟩
    (.literal (.bool false) (Keyword.false.token ⟨1, 29⟩)))
  body := .print (.var ⟨⟨"on", ⟨1, 42⟩⟩, ()⟩)

theorem ForStatement.once_clean :
    CleanText "for (var on = true; on; on = false) print on;" [once.desugared] :=
  ⟨by cbv, by cbv, by cbv⟩

example : LoopMeaning ⟨fun _ => 0, 1000⟩ ⟨.topLevel, [], .stmt ForStatement.once.desugared⟩ .once 0
    globals .initial := by
  have hr : Running (fun _ => True) ⟨.topLevel, [], .stmt ForStatement.once.desugared⟩ [] 0 0 globals
      .initial :=
    ⟨.part (.text ForStatement.once_clean) (i := 0) rfl, rfl, trivial, .globals, .initial _, trivial⟩
  exact hr.loopMeaning _ rfl rfl

/-! ## Sessions -/

/-- Every loop that stands for a for statement means it, wherever one of the moments that count is
its beginning. -/
structure LoopsMean (h : Host) (V : Moment → Prop) : Prop where
  /-- A statement that begins to run does so at a place in a text without issues. -/
  placed : ∀ st fuel depth chain s, V (.run (.stmt st) fuel depth chain s) →
    ∃ p levels, p.linked = .stmt st ∧ Running V p levels fuel depth chain s
  /-- If it is the loop of a for statement, whose body was read as a statement, it means it. -/
  means : ∀ p levels fuel depth chain s, Running V p levels fuel depth chain s →
    ∀ f : ForStatement Unit, p.node = .stmt f.desugared →
    ∀ dangling ts is, Grammar.Phrase (.statement dangling) ts f.body is →
      LoopMeaning h p f depth chain s

/-- **Every loop of a session means its for statement.** -/
theorem Session.loops_mean (h : Host) (verbose : Bool) (limit : Option Int) (turns : List Turn) :
    LoopsMean h (Visited h (.start verbose limit) turns) := by
  refine ⟨fun st fuel depth chain s hv => ?_, fun p levels fuel depth chain s hr f hn _ _ _ hb =>
    hr.loopMeaning h hn hb.declares_eq_nil⟩
  cases hv.good with
  | @run p levels _ _ _ _ _ hacc hn hlevels hready hs hhold =>
    have hfits : Fits s p.scopes chain := by
      refine hready.fits_of_ne_var fun r hr => ?_
      obtain ⟨around, scopes, node⟩ := p
      cases hr
      exact absurd hn (by simp [Place.linked])
    exact ⟨p, levels, hn, hacc, hlevels, hn ▸ hv, hfits, hs, hhold⟩

end LoxKit
