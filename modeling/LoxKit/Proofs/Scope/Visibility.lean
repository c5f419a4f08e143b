import LoxKit.Proofs.Grammar.Anchors

/-!
# Lexical visibility

Which declaration a reference means, read off the text around it: the innermost construct that has
declared the name before the reference. Its link is the number of scopes that the constructs inside
of that one open. Nothing of this needs linking, which carries along tables of names and counts them;
linking comes to the same numbers.

Headlines:
* `Context.Innermost`, `Context.scopeCount`: the construct that is meant, and the scopes to leave.
* `Context.hops?_eq_some_iff`: searching the scopes of a context finds that construct.
* `linkProgram_erase`: linking changes nothing in a tree but its links.
* `linkProgram_references`: the links of a program are those of its sites.
* **`Grammar.linked_lexically`**: so the links of whatever is read are the lexical ones.
-/

namespace LoxKit

/-! ## Scopes to leave -/

namespace Construct

/-- How many scopes a construct opens: one for what it declares, in a method one for `this`, and one
more for `super` if there is a superclass. -/
def scopeCount : Construct → Nat
  | block | function => 1
  | method _ false => 2
  | method _ true => 3

/-- Whether a construct is a method of a class with a superclass. -/
def inherits : Construct → Bool
  | block | function => false
  | method _ inherits => inherits

end Construct

theorem Enclosure.length_scopes (e : Enclosure) : e.scopes.length = e.construct.scopeCount := by
  obtain ⟨construct, declared⟩ := e
  cases construct with
  | block | function => rfl
  | method name inherits => cases inherits <;> rfl

namespace Context

/-- How many scopes the constructs of a context open. -/
def scopeCount (ctx : Context) : Nat :=
  (ctx.map fun e => e.construct.scopeCount).sum

/-- The innermost construct with a property, and the constructs inside of it. -/
def Innermost (ctx : Context) (P : Enclosure → Prop) (inner : Context) (e : Enclosure) : Prop :=
  ∃ outer, ctx = inner ++ e :: outer ∧ P e ∧ ∀ i ∈ inner, ¬P i

/-- Every name that is declared in a context has a property. -/
def All (P : String → Prop) (ctx : Context) : Prop :=
  ∀ e ∈ ctx, ∀ name ∈ e.declared, P name

/-- The link of a name in a context. -/
def hops? (ctx : Context) (name : String) : Link :=
  ctx.scopes.findIdx? (name ∈ ·)

theorem innermost_cons {a e : Enclosure} {ctx inner : Context} {P : Enclosure → Prop} :
    Innermost (a :: ctx) P inner e ↔
      (P a ∧ inner = [] ∧ e = a) ∨ (¬P a ∧ ∃ rest, inner = a :: rest ∧ Innermost ctx P rest e) := by
  constructor
  · rintro ⟨outer, heq, he, hinner⟩
    cases inner with
    | nil =>
      obtain ⟨rfl, -⟩ := List.cons.inj heq
      exact Or.inl ⟨he, rfl, rfl⟩
    | cons b rest =>
      obtain ⟨rfl, hrest⟩ := List.cons.inj heq
      rw [List.forall_mem_cons] at hinner
      exact Or.inr ⟨hinner.1, rest, rfl, outer, hrest, he, hinner.2⟩
  · rintro (⟨ha, rfl, rfl⟩ | ⟨ha, rest, rfl, outer, rfl, he, hrest⟩)
    · exact ⟨ctx, rfl, ha, fun _ h => absurd h List.not_mem_nil⟩
    · exact ⟨outer, rfl, he, List.forall_mem_cons.mpr ⟨ha, hrest⟩⟩

theorem innermost_method {ctx : Context} :
    (∃ inner e, ctx.Innermost (·.construct.isMethod = true) inner e) ↔ ctx.method? ≠ none := by
  induction ctx with
  | nil => simp [Innermost, method?, constructs]
  | cons a ctx ih =>
    simp only [innermost_cons, method?, constructs, List.map_cons, List.find?_cons] at ih ⊢
    by_cases ha : a.construct.isMethod = true
    · simp [ha]
    · rw [Bool.not_eq_true] at ha
      simp only [ha, Bool.false_eq_true, false_and, false_or, not_false_eq_true, true_and, ← ih]
      constructor
      · rintro ⟨_, e, rest, -, he⟩
        exact ⟨rest, e, he⟩
      · rintro ⟨rest, e, he⟩
        exact ⟨_, e, rest, rfl, he⟩

/-- The scopes of a context are searched construct by construct. If each construct has the name in
its scope number `k` or in none, what is found lies `k` scopes outside of what is inside of the
innermost construct that has it. -/
theorem hops?_eq_some_iff {name : String} {P : Enclosure → Prop} [DecidablePred P] {k : Nat} :
    ∀ {ctx : Context} {d : Nat},
    (∀ e ∈ ctx, e.scopes.findIdx? (name ∈ ·) = if P e then some k else none) →
      (ctx.hops? name = some d ↔ ∃ inner e, ctx.Innermost P inner e ∧ d = scopeCount inner + k)
  | [], d, _ => by simp [hops?, scopes, Innermost]
  | a :: ctx, d, h => by
    rw [List.forall_mem_cons] at h
    have hcons : hops? (a :: ctx) name =
        (a.scopes.findIdx? (name ∈ ·)).or ((hops? ctx name).map (· + a.scopes.length)) := by
      simp only [hops?, scopes, List.flatMap_cons, List.findIdx?_append]
    rw [hcons, h.1, a.length_scopes]
    simp only [innermost_cons]
    by_cases ha : P a
    · simp only [ha, if_true, Option.some_or, Option.some.injEq, true_and, not_true, false_and,
        or_false]
      constructor
      · rintro rfl
        exact ⟨[], a, ⟨rfl, rfl⟩, (Nat.zero_add k).symm⟩
      · rintro ⟨inner, e, ⟨rfl, rfl⟩, rfl⟩
        exact (Nat.zero_add k).symm
    · simp only [ha, if_false, Option.none_or, Option.map_eq_some_iff, false_and, false_or,
        not_false_eq_true, true_and, hops?_eq_some_iff h.2]
      constructor
      · rintro ⟨_, ⟨inner, e, he, rfl⟩, rfl⟩
        refine ⟨a :: inner, e, ⟨inner, rfl, he⟩, ?_⟩
        simp only [scopeCount, List.map_cons, List.sum_cons]
        omega
      · rintro ⟨_, e, ⟨inner, rfl, he⟩, rfl⟩
        refine ⟨scopeCount inner + k, ⟨inner, e, he, rfl⟩, ?_⟩
        simp only [scopeCount, List.map_cons, List.sum_cons]
        omega

section Plain

variable {ctx : Context} {d : Nat}

/-- A name that is no keyword is found in the innermost construct that declares it. -/
theorem hops?_plain {name : String} (hn : Plain name) :
    ctx.hops? name = some d ↔
      ∃ inner e, ctx.Innermost (name ∈ ·.declared) inner e ∧ d = scopeCount inner := by
  have hthis : name ≠ Keyword.this.word := hn.ne_word .this
  have hsuper : name ≠ Keyword.super.word := hn.ne_word .super
  refine hops?_eq_some_iff (k := 0) fun e _ => ?_
  obtain ⟨construct, declared⟩ := e
  rcases construct with _ | _ | ⟨method, _ | _⟩ <;>
    simp [Enclosure.scopes, List.findIdx?_cons, hthis, hsuper]

variable (h : ctx.All Plain)

include h

theorem All.not_mem_declared {e : Enclosure} (he : e ∈ ctx) (k : Keyword) : k.word ∉ e.declared :=
  fun hk => (h e he _ hk).ne_word k rfl

/-- `this` is found in the innermost method, just outside of its body. -/
theorem hops?_this : ctx.hops? Keyword.this.word = some d ↔
    ∃ inner e, ctx.Innermost (·.construct.isMethod = true) inner e ∧ d = scopeCount inner + 1 := by
  refine hops?_eq_some_iff fun e he => ?_
  have hdeclared := h.not_mem_declared he .this
  obtain ⟨construct, declared⟩ := e
  rcases construct with _ | _ | ⟨method, _ | _⟩ <;>
    simp [Enclosure.scopes, List.findIdx?_cons, Construct.isMethod, hdeclared]

/-- `super` is found in the innermost method of a class with a superclass, outside of `this`. -/
theorem hops?_super : ctx.hops? Keyword.super.word = some d ↔
    ∃ inner e, ctx.Innermost (·.construct.inherits = true) inner e ∧ d = scopeCount inner + 2 := by
  refine hops?_eq_some_iff fun e he => ?_
  have hdeclared := h.not_mem_declared he .super
  have hne : Keyword.super.word ≠ Keyword.this.word := by decide
  obtain ⟨construct, declared⟩ := e
  rcases construct with _ | _ | ⟨method, _ | _⟩ <;>
    simp [Enclosure.scopes, List.findIdx?_cons, Construct.inherits, hdeclared, hne]

end Plain

end Context

/-! ## References -/

/-- Whether a mention is a reference, which linking gives a link if it can. -/
def Mention.isReference : Mention → Bool
  | lookup _ | assignment _ | this _ | super _ => true
  | declaration _ | superclass _ _ | giveBack _ _ => false

/-- The link of a reference at a site. There is no `this` outside of the classes. -/
def Site.link (s : Site) : Link :=
  match s.mention with
  | .this name => if s.context.method?.isNone then none else s.context.hops? name.text
  | mention => s.context.hops? mention.text

/-- The references among sites, with their links. -/
def resolved (ss : List Site) : List (Mention × Link) :=
  ss.filterMap fun s => if s.mention.isReference then some (s.mention, s.link) else none

section References

variable {ρ : Type}

/-- The references of an expression with what is known about them, in the order of its mentions. -/
def Expr.references : Expr ρ → List (Mention × ρ)
  | .literal _ _ => []
  | .grouping inner => inner.references
  | .unary _ _ arg => arg.references
  | .binary _ _ lhs rhs => lhs.references ++ rhs.references
  | .logical _ _ lhs rhs => lhs.references ++ rhs.references
  | .var target => [(.lookup target.name, target.link)]
  | .assign target value => value.references ++ [(.assignment target.name, target.link)]
  | .call callee args _ => callee.references ++ args.flatMap references
  | .get object _ => object.references
  | .set object _ value => value.references ++ object.references
  | .this target => [(.this target.name, target.link)]
  | .super target _ => [(.super target.name, target.link)]

/-- The references of an expression that may be missing. -/
def Expr.references? : Option (Expr ρ) → List (Mention × ρ)
  | none => []
  | some e => e.references

/-- The reference to the superclass of a class, if it has one. -/
def superclassReferences : Option (Reference ρ) → List (Mention × ρ)
  | none => []
  | some r => [(.lookup r.name, r.link)]

mutual

/-- The references of a statement. -/
def Stmt.references : Stmt ρ → List (Mention × ρ)
  | .expression e => e.references
  | .print e => e.references
  | .var _ initializer => Expr.references? initializer
  | .block body => Stmt.referencesOfAll body
  | .ifThen condition thenPart => condition.references ++ thenPart.references
  | .ifElse condition thenPart elsePart =>
    condition.references ++ thenPart.references ++ elsePart.references
  | .whileDo condition body => condition.references ++ body.references
  | .function f => f.references
  | .giveBack _ value => Expr.references? value
  | .classDecl _ superclass methods =>
    superclassReferences superclass ++ methods.flatMap Function.references

/-- The references of statements one after the other. -/
def Stmt.referencesOfAll : List (Stmt ρ) → List (Mention × ρ)
  | [] => []
  | stmt :: stmts => stmt.references ++ Stmt.referencesOfAll stmts

/-- The references of a function. -/
def Function.references : Function ρ → List (Mention × ρ)
  | .mk _ _ body => Stmt.referencesOfAll body

end

end References

@[simp]
theorem resolved_nil : resolved [] = [] := rfl

@[simp]
theorem resolved_append (ss ss' : List Site) : resolved (ss ++ ss') = resolved ss ++ resolved ss' :=
  List.filterMap_append

@[simp]
theorem resolved_flatMap {α : Type} (f : α → List Site) (as : List α) :
    resolved (as.flatMap f) = as.flatMap fun a => resolved (f a) :=
  List.filterMap_flatMap

theorem resolved_eq (ss : List Site) :
    resolved ss = (ss.filter (·.mention.isReference)).map fun s => (s.mention, s.link) := by
  rw [← List.filterMap_eq_map, List.filterMap_filter]
  rfl

theorem resolved_cons (s : Site) (ss : List Site) :
    resolved (s :: ss) =
      (if s.mention.isReference then [(s.mention, s.link)] else []) ++ resolved ss := by
  cases h : s.mention.isReference <;> simp [resolved, h]

/-! ## Linking and the sites -/

section Linking

open Scopes

variable {around : Surroundings} {scopes : Scopes} {ctx : Context}

theorem link_this (hc : around.enclosingClass = ctx.classKind) :
    around.enclosingClass = .none ↔ ctx.method?.isNone = true := by
  rw [hc, Context.classKind]
  rcases ctx.method? with _ | construct
  · simp
  · rcases construct with _ | _ | ⟨method, _ | _⟩ <;> simp

/-- Linking an expression gives its references the links of their sites. -/
theorem linkExpr_references (hm : Matches scopes ctx.scopes)
    (hc : around.enclosingClass = ctx.classKind) (initializing : Option Name) : ∀ e : Expr Unit,
    (linkExpr around scopes e).tree.references = resolved (e.sites ctx initializing)
  | .literal value token => by
    simp [linkExpr, Expr.sites, Expr.mentions, Expr.references]
  | .grouping inner => by
    simpa [linkExpr, Expr.sites, Expr.mentions, Expr.references] using
      linkExpr_references hm hc initializing inner
  | .unary op pos arg => by
    simpa [linkExpr, Expr.sites, Expr.mentions, Expr.references] using
      linkExpr_references hm hc initializing arg
  | .binary op pos lhs rhs => by
    have hl := linkExpr_references hm hc initializing lhs
    have hr := linkExpr_references hm hc initializing rhs
    simp [linkExpr, Expr.sites, Expr.mentions, Expr.references, hl, hr]
  | .logical op pos lhs rhs => by
    have hl := linkExpr_references hm hc initializing lhs
    have hr := linkExpr_references hm hc initializing rhs
    simp [linkExpr, Expr.sites, Expr.mentions, Expr.references, hl, hr]
  | .var target => by
    have hlink : scopes.hops? target.name.text = ctx.hops? target.name.text := hm.hops? _
    simp [linkExpr, linkVar, Expr.sites, Expr.mentions, Expr.references, resolved_cons,
      Mention.isReference, Site.link, Mention.text, hlink]
  | .assign target value => by
    have hv := linkExpr_references hm hc initializing value
    have hlink : scopes.hops? target.name.text = ctx.hops? target.name.text := hm.hops? _
    simp [linkExpr, Expr.sites, Expr.mentions, Expr.references, resolved_cons, hv,
      Mention.isReference, Site.link, Mention.text, hlink]
  | .call callee args paren => by
    have hcallee := linkExpr_references hm hc initializing callee
    have hargs : args.flatMap (fun e => (linkExpr around scopes e).tree.references) =
        args.flatMap fun e => resolved (e.sites ctx initializing) := by
      rw [List.flatMap_def, List.flatMap_def]
      exact congrArg _ (List.map_congr_left fun e he => linkExpr_references hm hc initializing e)
    simp [linkExpr, Expr.sites, Expr.mentions, Expr.references, hcallee, List.flatMap_map, hargs,
      List.map_flatMap]
  | .get object field => by
    simpa [linkExpr, Expr.sites, Expr.mentions, Expr.references] using
      linkExpr_references hm hc initializing object
  | .set object field value => by
    have ho := linkExpr_references hm hc initializing object
    have hv := linkExpr_references hm hc initializing value
    simp [linkExpr, Expr.sites, Expr.mentions, Expr.references, ho, hv]
  | .this target => by
    have hlink : scopes.hops? target.name.text = ctx.hops? target.name.text := hm.hops? _
    by_cases hk : around.enclosingClass = .none
    · have hnone := (link_this hc).mp hk
      simp [linkExpr, hk, Expr.sites, Expr.mentions, Expr.references, resolved_cons,
        Mention.isReference, Site.link, hnone]
    · have hsome := mt (link_this hc).mpr hk
      simp [linkExpr, hk, Expr.sites, Expr.mentions, Expr.references, resolved_cons,
        Mention.isReference, Site.link, hsome, hlink]
  | .super target method => by
    have hlink : scopes.hops? target.name.text = ctx.hops? target.name.text := hm.hops? _
    simp [linkExpr, Expr.sites, Expr.mentions, Expr.references, resolved_cons,
      Mention.isReference, Site.link, Mention.text, hlink]

theorem linkExpr?_references (hm : Matches scopes ctx.scopes)
    (hc : around.enclosingClass = ctx.classKind) (initializing : Option Name)
    (e : Option (Expr Unit)) :
    Expr.references? (linkExpr? around scopes e).tree =
      resolved (Expr.sites? ctx initializing e) := by
  cases e with
  | none => rfl
  | some e => exact linkExpr_references hm hc initializing e

theorem linkSuperclass_references (hm : Matches scopes ctx.scopes) (name : Name)
    (superclass : Option (Reference Unit)) :
    superclassReferences (linkSuperclass scopes name superclass).tree =
      resolved (superclassSites ctx name superclass) := by
  cases superclass with
  | none => rfl
  | some r =>
    have hlink : scopes.hops? r.name.text = ctx.hops? r.name.text := hm.hops? _
    simp [linkSuperclass, linkVar, superclassReferences, superclassSites, resolved_cons,
      Mention.isReference, Site.link, Mention.text, hlink]

theorem resolved_declarations (names : List Name) :
    ∀ ctx : Context, resolved (declarationSites ctx names) = [] := by
  induction names with
  | nil => exact fun _ => rfl
  | cons name names ih =>
    intro ctx
    rw [declarationSites, resolved_cons, ih]
    rfl

mutual

/-- Linking a statement gives its references the links of their sites. -/
theorem linkStmt_references {around : Surroundings} {scopes : Scopes} {ctx : Context}
    (h : Mirrors around scopes ctx) : ∀ stmt : Stmt Unit,
    (linkStmt around scopes stmt).tree.references = resolved (stmt.sites ctx)
  | .expression e | .print e => by
    simp only [linkStmt, Stmt.sites, Stmt.references]
    exact linkExpr_references h.matched h.enclosingClass none e
  | .var name initializer => by
    have hm : Matches (scopes.declare name).1 (ctx.declare [name.text]).scopes := by
      rw [Context.scopes_declare]
      exact h.matched.declare name
    have hi := linkExpr?_references hm (h.declare [name.text]).enclosingClass (some name) initializer
    simp [linkStmt, Stmt.sites, Stmt.references, resolved_cons, Mention.isReference, hi]
  | .block body => by
    have hb := linkStmts_references h.block body
    simp only [linkStmt, Stmt.sites, Stmt.references, hb]
  | .ifThen condition thenPart => by
    have hc := linkExpr_references h.matched h.enclosingClass none condition
    have ht := linkStmt_references h thenPart
    simp only [linkStmt, Stmt.sites, Stmt.references, resolved_append, hc, ht]
  | .ifElse condition thenPart elsePart => by
    have hc := linkExpr_references h.matched h.enclosingClass none condition
    have ht := linkStmt_references h thenPart
    have he := linkStmt_references (linkStmt_issues h thenPart).2 elsePart
    simp only [linkStmt, Stmt.sites, Stmt.references, resolved_append, hc, ht, he]
  | .whileDo condition body => by
    have hc := linkExpr_references h.matched h.enclosingClass none condition
    have hb := linkStmt_references h body
    simp only [linkStmt, Stmt.sites, Stmt.references, resolved_append, hc, hb]
  | .function f => by
    have hf := linkFunction_references (h.introduce f.name).function_start f
    simp [linkStmt, Stmt.sites, Stmt.references, resolved_cons, Mention.isReference, hf]
  | .giveBack keyword value => by
    have hv := linkExpr?_references h.matched h.enclosingClass none value
    simp [linkStmt, Stmt.sites, Stmt.references, resolved_cons, Mention.isReference, hv]
  | .classDecl name superclass methods => by
    have hin := h.introduce name
    have hs := linkSuperclass_references hin.matched name superclass
    have hms : methods.flatMap (fun f =>
        (linkFunction { methodSurroundings around superclass.isSome with function := methodKind f }
          (methodScopes (scopes.introduce name).1 superclass.isSome) f).tree.references) =
        methods.flatMap fun f => resolved (f.sites (ctx.declare [name.text])
          (.method f.name.text superclass.isSome)) := by
      rw [List.flatMap_def, List.flatMap_def]
      exact congrArg _ (List.map_congr_left fun f hf =>
        linkFunction_references (hin.method_start f superclass.isSome) f)
    simp [linkStmt, Stmt.sites, Stmt.references, resolved_cons, Mention.isReference, hs,
      List.flatMap_map, hms]
termination_by stmt => sizeOf stmt

/-- Linking statements in a row gives their references the links of their sites. -/
theorem linkStmts_references {around : Surroundings} {scopes : Scopes} {ctx : Context}
    (h : Mirrors around scopes ctx) : ∀ stmts : List (Stmt Unit),
    Stmt.referencesOfAll (linkStmts around scopes stmts).tree = resolved (Stmt.sitesOfAll ctx stmts)
  | [] => by
    simp only [linkStmts, Stmt.sitesOfAll, Stmt.referencesOfAll, resolved_nil]
  | stmt :: stmts => by
    have hfirst := linkStmt_references h stmt
    have hrest := linkStmts_references (linkStmt_issues h stmt).2 stmts
    simp only [linkStmts, Stmt.sitesOfAll, Stmt.referencesOfAll, resolved_append, hfirst, hrest]
termination_by stmts => sizeOf stmts

/-- Linking a function gives its references the links of their sites. -/
theorem linkFunction_references {around : Surroundings} {scopes : Scopes} {ctx : Context}
    {construct : Construct} (h : Mirrors around (.empty :: scopes) (⟨construct, []⟩ :: ctx)) :
    ∀ f : Function Unit,
    (linkFunction around scopes f).tree.references = resolved (f.sites ctx construct)
  | .mk name params body => by
    have hin := h.declare (params.map Name.text)
    rw [← Scopes.introduceAll_fst] at hin
    have hb := linkStmts_references hin body
    simp only [linkFunction, Function.sites, Function.references, resolved_append,
      resolved_declarations, List.nil_append, hb]
    rfl
termination_by f => sizeOf f

end

/-- The links of a program are those of its sites. -/
theorem linkProgram_references (stmts : List (Stmt Unit)) :
    Stmt.referencesOfAll (linkProgram stmts).tree = resolved (sites stmts) :=
  linkStmts_references .topLevel stmts

end Linking

/-! ## Linking keeps the tree -/

theorem linkExpr_erase (around : Surroundings) (scopes : Scopes) : ∀ e : Expr Unit,
    (linkExpr around scopes e).tree.erase = e
  | .literal value token => by
    simp only [linkExpr, Expr.erase]
  | .grouping inner => by
    simp [linkExpr, Expr.erase, linkExpr_erase around scopes inner]
  | .unary op pos arg => by
    simp [linkExpr, Expr.erase, linkExpr_erase around scopes arg]
  | .binary op pos lhs rhs => by
    simp [linkExpr, Expr.erase, linkExpr_erase around scopes lhs, linkExpr_erase around scopes rhs]
  | .logical op pos lhs rhs => by
    simp [linkExpr, Expr.erase, linkExpr_erase around scopes lhs, linkExpr_erase around scopes rhs]
  | .var target => by
    simp [linkExpr, linkVar, Expr.erase, Reference.erase]
  | .assign target value => by
    simp [linkExpr, Expr.erase, Reference.erase, linkExpr_erase around scopes value]
  | .call callee args paren => by
    have hargs : args.map (fun e => (linkExpr around scopes e).tree.erase) = args :=
      (List.map_congr_left fun e _ => linkExpr_erase around scopes e).trans (List.map_id args)
    simpa [linkExpr, Expr.erase, linkExpr_erase around scopes callee, Function.comp_def] using hargs
  | .get object field => by
    simp [linkExpr, Expr.erase, linkExpr_erase around scopes object]
  | .set object field value => by
    simp [linkExpr, Expr.erase, linkExpr_erase around scopes object,
      linkExpr_erase around scopes value]
  | .this target => by
    rw [linkExpr]
    split <;> simp [Expr.erase, Reference.erase]
  | .super target method => by
    simp [linkExpr, Expr.erase, Reference.erase]

theorem linkExpr?_erase (around : Surroundings) (scopes : Scopes) (e : Option (Expr Unit)) :
    (linkExpr? around scopes e).tree.map Expr.erase = e := by
  cases e with
  | none => rfl
  | some e => exact congrArg some (linkExpr_erase around scopes e)

theorem linkSuperclass_erase (scopes : Scopes) (name : Name)
    (superclass : Option (Reference Unit)) :
    (linkSuperclass scopes name superclass).tree.map Reference.erase = superclass := by
  cases superclass <;> rfl

mutual

/-- Linking a statement changes nothing but links. -/
theorem linkStmt_erase (around : Surroundings) (scopes : Scopes) : ∀ stmt : Stmt Unit,
    (linkStmt around scopes stmt).tree.erase = stmt
  | .expression e | .print e => by
    simp only [linkStmt, Stmt.erase, linkExpr_erase]
  | .var name initializer | .giveBack name initializer => by
    simp only [linkStmt, Stmt.erase, linkExpr?_erase]
  | .block body => by
    simp only [linkStmt, Stmt.erase, linkStmts_erase around _ body]
  | .ifThen condition thenPart => by
    simp only [linkStmt, Stmt.erase, linkExpr_erase, linkStmt_erase around _ thenPart]
  | .ifElse condition thenPart elsePart => by
    simp only [linkStmt, Stmt.erase, linkExpr_erase, linkStmt_erase around _ thenPart,
      linkStmt_erase around _ elsePart]
  | .whileDo condition body => by
    simp only [linkStmt, Stmt.erase, linkExpr_erase, linkStmt_erase around _ body]
  | .function f => by
    simp only [linkStmt, Stmt.erase, linkFunction_erase _ _ f]
  | .classDecl name superclass methods => by
    have hms : methods.map (fun f =>
        (linkFunction { methodSurroundings around superclass.isSome with function := methodKind f }
          (methodScopes (scopes.introduce name).1 superclass.isSome) f).tree.erase) = methods :=
      (List.map_congr_left fun f _ => linkFunction_erase _ _ f).trans (List.map_id methods)
    simpa [linkStmt, Stmt.erase, linkSuperclass_erase, Function.comp_def] using hms
termination_by stmt => sizeOf stmt

theorem linkStmts_erase (around : Surroundings) (scopes : Scopes) : ∀ stmts : List (Stmt Unit),
    (linkStmts around scopes stmts).tree.map Stmt.erase = stmts
  | [] => by
    simp only [linkStmts, List.map_nil]
  | stmt :: stmts => by
    simp only [linkStmts, List.map_cons, linkStmt_erase around scopes stmt,
      linkStmts_erase around _ stmts]
termination_by stmts => sizeOf stmts

theorem linkFunction_erase (around : Surroundings) (scopes : Scopes) : ∀ f : Function Unit,
    (linkFunction around scopes f).tree.erase = f
  | .mk name params body => by
    simp only [linkFunction, Function.erase, linkStmts_erase around _ body]
termination_by f => sizeOf f

end

/-- Linking a program changes nothing but links. -/
theorem linkProgram_erase (stmts : List (Stmt Unit)) :
    (linkProgram stmts).tree.map Stmt.erase = stmts :=
  linkStmts_erase .topLevel [] stmts

/-! ## The names of contexts -/

/-- Every name that is declared at a site has a property. -/
def Declares (P : String → Prop) (ss : List Site) : Prop :=
  ∀ s ∈ ss, ∀ name, s.mention = .declaration name → P name.text

/-- Every name that is declared around a site has a property. -/
def Surrounds (P : String → Prop) (ss : List Site) : Prop :=
  ∀ s ∈ ss, s.context.All P

section Names

variable {P : String → Prop}

theorem declares_cons {s : Site} {ss : List Site} : Declares P (s :: ss) ↔
    (∀ name, s.mention = .declaration name → P name.text) ∧ Declares P ss :=
  List.forall_mem_cons

theorem declares_append {ss ss' : List Site} :
    Declares P (ss ++ ss') ↔ Declares P ss ∧ Declares P ss' :=
  List.forall_mem_append

theorem Surrounds.nil : Surrounds P [] :=
  fun _ h => absurd h List.not_mem_nil

theorem Surrounds.cons {s : Site} {ss : List Site} (h : s.context.All P) (hs : Surrounds P ss) :
    Surrounds P (s :: ss) :=
  List.forall_mem_cons.mpr ⟨h, hs⟩

theorem Surrounds.append {ss ss' : List Site} (h : Surrounds P ss) (h' : Surrounds P ss') :
    Surrounds P (ss ++ ss') :=
  List.forall_mem_append.mpr ⟨h, h'⟩

namespace Context.All

variable {ctx : Context}

theorem nil : All P [] :=
  fun _ h => absurd h List.not_mem_nil

theorem enter (h : ctx.All P) {construct : Construct} {names : List String}
    (hn : ∀ n ∈ names, P n) : All P (⟨construct, names⟩ :: ctx) :=
  List.forall_mem_cons.mpr ⟨hn, h⟩

theorem declare (h : ctx.All P) {names : List String} (hn : ∀ n ∈ names, P n) :
    (ctx.declare names).All P := by
  cases ctx with
  | nil => exact nil
  | cons e outer =>
    obtain ⟨he, houter⟩ := List.forall_mem_cons.mp h
    exact enter houter (List.forall_mem_append.mpr ⟨he, hn⟩)

theorem sites (h : ctx.All P) (initializing : Option Name) (e : Expr Unit) :
    Surrounds P (e.sites ctx initializing) := by
  intro s hs
  obtain ⟨m, -, rfl⟩ := List.mem_map.mp hs
  exact h

theorem sites? (h : ctx.All P) (initializing : Option Name) (e : Option (Expr Unit)) :
    Surrounds P (Expr.sites? ctx initializing e) := by
  cases e with
  | none => exact .nil
  | some e => exact h.sites initializing e

theorem superclassSites (h : ctx.All P) (name : Name) (superclass : Option (Reference Unit)) :
    Surrounds P (superclassSites ctx name superclass) := by
  cases superclass with
  | none => exact .nil
  | some r => exact .cons h (.cons h .nil)

theorem declarationSites (names : List Name) : ∀ {ctx : Context}, ctx.All P →
    Declares P (declarationSites ctx names) →
      Surrounds P (LoxKit.declarationSites ctx names) ∧ ∀ n ∈ names.map Name.text, P n := by
  induction names with
  | nil => exact fun _ _ => ⟨.nil, fun _ h => absurd h List.not_mem_nil⟩
  | cons name names ih =>
    intro ctx h hd
    rw [LoxKit.declarationSites, declares_cons] at hd
    have hname := hd.1 name rfl
    obtain ⟨hs, hnames⟩ := ih (h.declare (List.forall_mem_singleton.mpr hname)) hd.2
    exact ⟨.cons h hs, List.forall_mem_cons.mpr ⟨hname, hnames⟩⟩

end Context.All

mutual

/-- The names around the sites of a statement are declared around the statement or at its sites. -/
theorem Stmt.surrounds {ctx : Context} (h : ctx.All P) : ∀ stmt : Stmt Unit,
    Declares P (stmt.sites ctx) → Surrounds P (stmt.sites ctx) ∧ ∀ n ∈ stmt.introduces, P n
  | .expression e | .print e => by
    intro _
    rw [Stmt.sites]
    exact ⟨h.sites none e, fun _ hn => absurd hn List.not_mem_nil⟩
  | .var name initializer => by
    intro hd
    rw [Stmt.sites, declares_cons] at hd
    have hname := List.forall_mem_singleton.mpr (hd.1 name rfl)
    rw [Stmt.sites]
    exact ⟨.cons h ((h.declare hname).sites? (some name) initializer), hname⟩
  | .block body => by
    intro hd
    rw [Stmt.sites] at hd ⊢
    have hin : Context.All P (⟨.block, []⟩ :: ctx) := h.enter fun _ hn => absurd hn List.not_mem_nil
    exact ⟨Stmt.surroundsAll hin body hd, fun _ hn => absurd hn List.not_mem_nil⟩
  | .ifThen condition thenPart => by
    intro hd
    rw [Stmt.sites, declares_append] at hd
    obtain ⟨ht, hnames⟩ := Stmt.surrounds h thenPart hd.2
    rw [Stmt.sites]
    exact ⟨(h.sites none condition).append ht, hnames⟩
  | .ifElse condition thenPart elsePart => by
    intro hd
    rw [Stmt.sites, declares_append, declares_append] at hd
    obtain ⟨ht, hthen⟩ := Stmt.surrounds h thenPart hd.1.2
    obtain ⟨he, helse⟩ := Stmt.surrounds (h.declare hthen) elsePart hd.2
    rw [Stmt.sites]
    exact ⟨((h.sites none condition).append ht).append he,
      List.forall_mem_append.mpr ⟨hthen, helse⟩⟩
  | .whileDo condition body => by
    intro hd
    rw [Stmt.sites, declares_append] at hd
    obtain ⟨hb, hnames⟩ := Stmt.surrounds h body hd.2
    rw [Stmt.sites]
    exact ⟨(h.sites none condition).append hb, hnames⟩
  | .function f => by
    intro hd
    rw [Stmt.sites, declares_cons] at hd
    have hname := List.forall_mem_singleton.mpr (hd.1 f.name rfl)
    rw [Stmt.sites]
    exact ⟨.cons h (Function.surrounds (h.declare hname) f hd.2), hname⟩
  | .giveBack keyword value => by
    intro _
    rw [Stmt.sites]
    exact ⟨.cons h (h.sites? none value), fun _ hn => absurd hn List.not_mem_nil⟩
  | .classDecl name superclass methods => by
    intro hd
    rw [Stmt.sites, declares_append, declares_cons] at hd
    have hname := List.forall_mem_singleton.mpr (hd.1.1 name rfl)
    have hin := h.declare hname
    rw [Stmt.sites]
    refine ⟨.append (.cons h (hin.superclassSites name superclass)) fun s hs => ?_, hname⟩
    obtain ⟨f, hf, hs⟩ := List.mem_flatMap.mp hs
    exact Function.surrounds hin f (fun s' hs' => hd.2 s' (List.mem_flatMap.mpr ⟨f, hf, hs'⟩)) s hs
termination_by stmt => sizeOf stmt

theorem Stmt.surroundsAll {ctx : Context} (h : ctx.All P) : ∀ stmts : List (Stmt Unit),
    Declares P (Stmt.sitesOfAll ctx stmts) → Surrounds P (Stmt.sitesOfAll ctx stmts)
  | [] => by
    intro _
    rw [Stmt.sitesOfAll]
    exact .nil
  | stmt :: stmts => by
    intro hd
    rw [Stmt.sitesOfAll, declares_append] at hd
    obtain ⟨hs, hnames⟩ := Stmt.surrounds h stmt hd.1
    rw [Stmt.sitesOfAll]
    exact hs.append (Stmt.surroundsAll (h.declare hnames) stmts hd.2)
termination_by stmts => sizeOf stmts

theorem Function.surrounds {ctx : Context} {construct : Construct} (h : ctx.All P) :
    ∀ f : Function Unit, Declares P (f.sites ctx construct) → Surrounds P (f.sites ctx construct)
  | .mk name params body => by
    intro hd
    rw [Function.sites, declares_append] at hd
    have hin : Context.All P (⟨construct, []⟩ :: ctx) := h.enter fun _ hn => absurd hn List.not_mem_nil
    obtain ⟨hp, hnames⟩ := hin.declarationSites params hd.1
    rw [Function.sites]
    exact hp.append (Stmt.surroundsAll (h.enter hnames) body hd.2)
termination_by f => sizeOf f

end

end Names

/-! ## What is read -/

/-- How the link of a reference leads to the declaration that the text around it says. -/
def Site.LinkedLexically (s : Site) : Prop :=
  match s.mention with
  | .lookup name | .assignment name =>
    ∀ d, s.link = some d ↔ ∃ inner e,
      s.context.Innermost (name.text ∈ ·.declared) inner e ∧ d = Context.scopeCount inner
  | .this _ =>
    ∀ d, s.link = some d ↔ ∃ inner e,
      s.context.Innermost (·.construct.isMethod = true) inner e ∧ d = Context.scopeCount inner + 1
  | .super _ =>
    ∀ d, s.link = some d ↔ ∃ inner e,
      s.context.Innermost (·.construct.inherits = true) inner e ∧ d = Context.scopeCount inner + 2
  | _ => True

theorem Context.method?_of_innermost {ctx inner : Context} {e : Enclosure}
    (h : ctx.Innermost (·.construct.isMethod = true) inner e) : ctx.method? = some e.construct := by
  obtain ⟨outer, rfl, he, hinner⟩ := h
  have hnone : inner.find? (fun i => i.construct.isMethod) = none :=
    List.find?_eq_none.mpr hinner
  simp [method?, constructs, List.find?_map, hnone, he]

theorem Site.linkedLexically {s : Site} (hm : s.mention.At Token.Worded)
    (hc : s.context.All Plain) : s.LinkedLexically := by
  obtain ⟨context, initializing, mention⟩ := s
  obtain ⟨t, hw, hkind, -, htext⟩ := hm
  cases mention with
  | lookup name | assignment name =>
    have hplain : Plain name.text := by
      have hname : t.lexeme = name.text := htext
      rw [← hname]
      exact hw.2 hkind
    exact fun d => Context.hops?_plain hplain
  | this name =>
    have hname : name.text = Keyword.this.word := htext.symm.trans (hw.1 _ hkind)
    intro d
    simp only [Site.link, hname, ← Context.hops?_this hc]
    cases hmethod : context.method?.isNone with
    | false => simp
    | true =>
      simp only [if_true, Context.hops?_this hc]
      refine iff_of_false (by simp) ?_
      rintro ⟨inner, e, he, -⟩
      rw [Context.method?_of_innermost he] at hmethod
      cases hmethod
  | super name =>
    have hname : name.text = Keyword.super.word := htext.symm.trans (hw.1 _ hkind)
    intro d
    simp only [Site.link, Mention.text, hname]
    exact Context.hops?_super hc
  | declaration | superclass | giveBack => trivial

theorem Site.link_super {s : Site} {name : Name} (hlink : s.LinkedLexically)
    (hmention : s.mention = .super name) (hbreaks : ∀ c, ¬Breaks s c) :
    ∃ inner e, s.context.Innermost (·.construct.isMethod = true) inner e ∧
      e.construct.inherits = true ∧ s.link = some (Context.scopeCount inner + 2) := by
  obtain ⟨context, initializing, mention⟩ := s
  subst hmention
  have hmethod : context.method? ≠ none := fun h => hbreaks _ (.superOutsideClass h)
  obtain ⟨inner, e, he⟩ := Context.innermost_method.mpr hmethod
  have hfind := Context.method?_of_innermost he
  obtain ⟨outer, hctx, hm, hinner⟩ := he
  have hinherits : e.construct.inherits = true := by
    obtain ⟨construct, declared⟩ := e
    rcases construct with _ | _ | ⟨method, _ | _⟩
    · cases hm
    · cases hm
    · exact absurd (.superWithoutSuperclass hfind) (hbreaks _)
    · rfl
  have hnone : ∀ i ∈ inner, ¬i.construct.inherits = true := by
    intro i hi hinh
    refine hinner i hi ?_
    obtain ⟨construct, declared⟩ := i
    cases construct with
    | block | function => cases hinh
    | method => rfl
  exact ⟨inner, e, ⟨outer, hctx, hm, hinner⟩, hinherits,
    (hlink _).mpr ⟨inner, e, ⟨outer, hctx, hinherits, hnone⟩, rfl⟩⟩

/-- **The links are the lexical ones.** Whatever statements are read from tokens, linking changes
nothing in them but the links, and the references come out in the order of their sites. A variable
that is read or assigned has a link exactly if a construct around it has declared the name before,
and the link is the number of scopes that the constructs inside of the innermost such one open. A
`this` in a class leads to the scope around the body of the innermost method, and in a program
without issues a `super` leads to the scope around that. -/
theorem Grammar.linked_lexically {tokens : Tokens} (h : Grammar.Worded tokens.all) :
    (linkProgram (Grammar.parse tokens).statements).tree.map Stmt.erase =
        (Grammar.parse tokens).statements ∧
      Stmt.referencesOfAll (linkProgram (Grammar.parse tokens).statements).tree =
        ((sites (Grammar.parse tokens).statements).filter (·.mention.isReference)).map
          (fun s => (s.mention, s.link)) ∧
      (∀ s ∈ sites (Grammar.parse tokens).statements, s.LinkedLexically) ∧
      ((linkProgram (Grammar.parse tokens).statements).issues = [] →
        ∀ s ∈ sites (Grammar.parse tokens).statements, ∀ name, s.mention = .super name →
          ∃ inner e, s.context.Innermost (·.construct.isMethod = true) inner e ∧
            e.construct.inherits = true ∧ s.link = some (Context.scopeCount inner + 2)) := by
  have hat := (Grammar.parse_at (P := Token.Worded) (fun t ht => ht.1) h).2
  have hdeclares : Declares Plain (sites (Grammar.parse tokens).statements) := by
    intro s hs name hname
    obtain ⟨t, hw, hkind, -, htext⟩ := hat s hs
    rw [hname] at hkind htext
    have hlexeme : t.lexeme = name.text := htext
    rw [← hlexeme]
    exact hw.2 hkind
  have hsurrounds := Stmt.surroundsAll .nil _ hdeclares
  have hlinked : ∀ s ∈ sites (Grammar.parse tokens).statements, s.LinkedLexically :=
    fun s hs => Site.linkedLexically (hat s hs) (hsurrounds s hs)
  refine ⟨linkProgram_erase _, ?_, hlinked, fun hissues s hs name hname => ?_⟩
  · rw [linkProgram_references, resolved_eq]
  · rw [linkProgram_issues, breaches_eq_nil_iff] at hissues
    exact s.link_super (hlinked s hs) hname (hissues s hs)

/-- All the tokens of a text are written as their kinds say. -/
theorem Tokens.worded_all (text : String) : Grammar.Worded (Tokens.ofText text).all := by
  refine Grammar.worded_append.mpr ⟨Tokens.worded_ofText text, Grammar.worded_cons.mpr ⟨?_, ?_⟩⟩
  · rw [Tokens.ofText_ending]
    exact ⟨fun k hk => absurd hk (by simp [endingAt]), fun hk => absurd hk (by simp [endingAt])⟩
  · exact Grammar.worded_nil

/-- A method that calls the one that it overrides, from a block. -/
def overridingText : String :=
  "class A{m(){}}class B<A{m(x){{super.m();}}}"

/-- The `super` is behind the scopes of the block, of the body of the method and of `this`. -/
theorem linked_lexically_overriding :
    (linkProgram (Grammar.parse (Tokens.ofText overridingText)).statements).issues = [] ∧
      ∀ s ∈ sites (Grammar.parse (Tokens.ofText overridingText)).statements,
        ∀ name, s.mention = .super name →
          ∃ inner e, s.context.Innermost (·.construct.isMethod = true) inner e ∧
            e.construct.inherits = true ∧ s.link = some (Context.scopeCount inner + 2) := by
  have hissues :
      (linkProgram (Grammar.parse (Tokens.ofText overridingText)).statements).issues = [] := by
    unfold overridingText
    cbv
  exact ⟨hissues, (Grammar.linked_lexically (Tokens.worded_all overridingText)).2.2.2 hissues⟩

end LoxKit
