import LoxKit.Proofs.Scope.Sites
import LoxKit.Session

/-!
# The rules of scoping

A program keeps the rules of scoping at each of its sites, or breaks one of them there. Linking
finds out by what it carries along, the scopes with the state of their declarations and the kinds of
function and class around it; the rules themselves only speak of the text around the site.

Headlines:
* `Breaks`: the rules, as what it means to break each of them.
* `breaks_iff`: a site breaks at most one rule, and which one can be computed.
* `linkProgram_issues`: linking finds an issue for each site that breaks a rule, and no other.
* **`Report.link_reports_breaches`**: so a report without a limit takes exactly these.
-/

namespace LoxKit

/-! ## The rules -/

/-- What it means for a site to break a rule of scoping. -/
inductive Breaks : Site → Complaint → Prop
  /-- A name is declared that the innermost construct has declared before. -/
  | alreadyDeclared {e : Enclosure} {outer : Context} {initializing : Option Name} {name : Name}
      (h : name.text ∈ e.declared) :
      Breaks ⟨e :: outer, initializing, .declaration name⟩ .alreadyDeclared
  /-- A local variable is read in its own initializer. -/
  | readInOwnInitializer {ctx : Context} {own name : Name} (hlocal : ctx ≠ [])
      (h : name.text = own.text) :
      Breaks ⟨ctx, some own, .lookup name⟩ .readInOwnInitializer
  /-- A return stands in no function or method. -/
  | returnAtTopLevel {ctx : Context} {initializing : Option Name} {keyword : Pos} {hasValue : Bool}
      (h : ctx.routine? = none) :
      Breaks ⟨ctx, initializing, .giveBack keyword hasValue⟩ .returnAtTopLevel
  /-- A return with a value stands in an initializer. -/
  | returnValueFromInitializer {ctx : Context} {initializing : Option Name} {keyword : Pos}
      {inherits : Bool} (h : ctx.routine? = some (.method initName inherits)) :
      Breaks ⟨ctx, initializing, .giveBack keyword true⟩ .returnValueFromInitializer
  /-- A `this` stands in no class. -/
  | thisOutsideClass {ctx : Context} {initializing : Option Name} {name : Name}
      (h : ctx.method? = none) : Breaks ⟨ctx, initializing, .this name⟩ .thisOutsideClass
  /-- A `super` stands in no class. -/
  | superOutsideClass {ctx : Context} {initializing : Option Name} {name : Name}
      (h : ctx.method? = none) : Breaks ⟨ctx, initializing, .super name⟩ .superOutsideClass
  /-- A `super` stands in a class without a superclass. -/
  | superWithoutSuperclass {ctx : Context} {initializing : Option Name} {name : Name}
      {method : String} (h : ctx.method? = some (.method method false)) :
      Breaks ⟨ctx, initializing, .super name⟩ .superWithoutSuperclass
  /-- A class has itself as its superclass. -/
  | inheritsFromItself {ctx : Context} {initializing : Option Name} {name subclass : Name}
      (h : name.text = subclass.text) :
      Breaks ⟨ctx, initializing, .superclass name subclass⟩ .inheritsFromItself

namespace Site

/-- The rule that a site breaks, if it breaks one. -/
def complaint? (s : Site) : Option Complaint :=
  match s.mention with
  | .declaration name =>
    if s.context.head?.any (name.text ∈ ·.declared) then some .alreadyDeclared else none
  | .lookup name =>
    if s.context ≠ [] ∧ s.initializing.any (·.text = name.text) then some .readInOwnInitializer
    else none
  | .assignment _ => none
  | .this _ => if s.context.method?.isNone then some .thisOutsideClass else none
  | .super _ =>
    match s.context.method? with
    | none => some .superOutsideClass
    | some (.method _ true) => none
    | some _ => some .superWithoutSuperclass
  | .superclass name subclass =>
    if name.text = subclass.text then some .inheritsFromItself else none
  | .giveBack _ hasValue =>
    match s.context.routine? with
    | none => some .returnAtTopLevel
    | some (.method name _) =>
      if name = initName ∧ hasValue then some .returnValueFromInitializer else none
    | some _ => none

/-- The issue about a rule that a site breaks. It is anchored at the name or keyword of the site. -/
def issue? (s : Site) : Option Issue :=
  s.complaint?.map (Issue.atLexeme s.mention.pos s.mention.text)

end Site

theorem Context.isMethod_of_method? {ctx : Context} {c : Construct} (h : ctx.method? = some c) :
    c.isMethod = true :=
  List.find?_some h

/-- A site breaks at most one rule, and which one can be computed. -/
theorem breaks_iff {s : Site} {c : Complaint} : Breaks s c ↔ s.complaint? = some c := by
  constructor
  · intro h
    cases h with
    | alreadyDeclared h => simp [Site.complaint?, h]
    | readInOwnInitializer hlocal h => simp [Site.complaint?, hlocal, h]
    | returnAtTopLevel h => simp [Site.complaint?, h]
    | returnValueFromInitializer h => simp [Site.complaint?, h]
    | thisOutsideClass h => simp [Site.complaint?, h]
    | superOutsideClass h => simp [Site.complaint?, h]
    | superWithoutSuperclass h => simp [Site.complaint?, h]
    | inheritsFromItself h => simp [Site.complaint?, h]
  · obtain ⟨ctx, initializing, mention⟩ := s
    intro h
    cases mention with
    | declaration name =>
      rcases ctx with _ | ⟨e, outer⟩
      · simp [Site.complaint?] at h
      · simp only [Site.complaint?, List.head?_cons, Option.any_some, decide_eq_true_eq,
          Option.ite_none_right_eq_some, Option.some.injEq] at h
        exact h.2 ▸ .alreadyDeclared h.1
    | lookup name =>
      rcases initializing with _ | own
      · simp [Site.complaint?] at h
      · simp only [Site.complaint?, Option.any_some, decide_eq_true_eq,
          Option.ite_none_right_eq_some, Option.some.injEq] at h
        exact h.2 ▸ .readInOwnInitializer h.1.1 h.1.2.symm
    | assignment name => simp [Site.complaint?] at h
    | this name =>
      simp only [Site.complaint?, Option.isNone_iff_eq_none, Option.ite_none_right_eq_some,
        Option.some.injEq] at h
      exact h.2 ▸ .thisOutsideClass h.1
    | super name =>
      cases hm : ctx.method? with
      | none =>
        simp only [Site.complaint?, hm, Option.some.injEq] at h
        exact h ▸ .superOutsideClass hm
      | some construct =>
        cases construct with
        | block | function =>
          exact absurd (Context.isMethod_of_method? hm) (by simp [Construct.isMethod])
        | method method inherits =>
          cases inherits with
          | true => simp [Site.complaint?, hm] at h
          | false =>
            simp only [Site.complaint?, hm, Option.some.injEq] at h
            exact h ▸ .superWithoutSuperclass hm
    | superclass name subclass =>
      simp only [Site.complaint?, Option.ite_none_right_eq_some, Option.some.injEq] at h
      exact h.2 ▸ .inheritsFromItself h.1
    | giveBack keyword hasValue =>
      cases hr : ctx.routine? with
      | none =>
        simp only [Site.complaint?, hr, Option.some.injEq] at h
        exact h ▸ .returnAtTopLevel hr
      | some construct =>
        cases construct with
        | block | function => simp [Site.complaint?, hr] at h
        | method method inherits =>
          simp only [Site.complaint?, hr, Option.ite_none_right_eq_some, Option.some.injEq] at h
          obtain ⟨⟨rfl, rfl⟩, rfl⟩ := h
          exact .returnValueFromInitializer hr

instance (s : Site) (c : Complaint) : Decidable (Breaks s c) :=
  decidable_of_iff _ breaks_iff.symm

/-- The issue of a site is about the rule that it breaks. -/
theorem Site.issue?_eq_some_iff {s : Site} {i : Issue} :
    s.issue? = some i ↔ ∃ c, Breaks s c ∧ i = .atLexeme s.mention.pos s.mention.text c := by
  unfold Site.issue?
  rw [Option.map_eq_some_iff]
  exact exists_congr fun c => and_congr breaks_iff.symm eq_comm

/-- The issues about the sites that break a rule, in the order of the sites. -/
def breaches (ss : List Site) : List Issue :=
  ss.filterMap Site.issue?

@[simp]
theorem breaches_nil : breaches [] = [] := rfl

@[simp]
theorem breaches_cons (s : Site) (ss : List Site) :
    breaches (s :: ss) = s.issue?.toList ++ breaches ss := by
  unfold breaches
  cases h : s.issue? <;> simp [h]

@[simp]
theorem breaches_append (ss ss' : List Site) : breaches (ss ++ ss') = breaches ss ++ breaches ss' :=
  List.filterMap_append

@[simp]
theorem breaches_flatMap {α : Type} (f : α → List Site) (as : List α) :
    breaches (as.flatMap f) = as.flatMap fun a => breaches (f a) :=
  List.filterMap_flatMap

/-! ## Linking finds what breaks the rules -/

section Expressions

variable {around : Surroundings} {scopes : Scopes} {ctx : Context} {initializing : Option Name}

/-- What the scopes know of a declaration that is under way: it is that of the local variable in
whose initializer they are. -/
def Initializing (scopes : Scopes) (ctx : Context) (initializing : Option Name) : Prop :=
  ∀ name, scopes.isPending name = true ↔ ctx ≠ [] ∧ initializing.any (·.text = name) = true

theorem linkVar_issues (hp : Initializing scopes ctx initializing) (r : Reference Unit) :
    (linkVar scopes r).issues = (Site.mk ctx initializing (.lookup r.name)).issue?.toList := by
  simp only [linkVar, Site.issue?, Site.complaint?, ← hp r.name.text]
  split <;> rfl

theorem thisIssues_eq (hc : around.enclosingClass = ctx.classKind) (initializing : Option Name)
    (name : Name) :
    (if around.enclosingClass = .none then
        [Issue.atLexeme name.pos name.text .thisOutsideClass] else []) =
      (Site.mk ctx initializing (.this name)).issue?.toList := by
  simp only [hc, Context.classKind, Site.issue?, Site.complaint?]
  rcases ctx.method? with _ | construct
  · rfl
  · rcases construct with _ | _ | ⟨method, _ | _⟩ <;> rfl

theorem superIssues_eq (hc : around.enclosingClass = ctx.classKind) (initializing : Option Name)
    (name : Name) :
    (superComplaint? around).toList.map (Issue.atLexeme name.pos name.text) =
      (Site.mk ctx initializing (.super name)).issue?.toList := by
  simp only [superComplaint?, hc, Context.classKind, Site.issue?, Site.complaint?]
  rcases ctx.method? with _ | construct
  · rfl
  · rcases construct with _ | _ | ⟨method, _ | _⟩ <;> rfl

/-- Linking an expression finds what its sites break. -/
theorem linkExpr_issues (hp : Initializing scopes ctx initializing)
    (hc : around.enclosingClass = ctx.classKind) : ∀ e : Expr Unit,
    (linkExpr around scopes e).issues = breaches (e.sites ctx initializing)
  | .literal value token => by
    simp [linkExpr, Expr.sites, Expr.mentions]
  | .grouping inner => by
    simpa [linkExpr, Expr.sites, Expr.mentions] using linkExpr_issues hp hc inner
  | .unary op pos arg => by
    simpa [linkExpr, Expr.sites, Expr.mentions] using linkExpr_issues hp hc arg
  | .binary op pos lhs rhs => by
    have hl := linkExpr_issues hp hc lhs
    have hr := linkExpr_issues hp hc rhs
    simp [linkExpr, Expr.sites, Expr.mentions, hl, hr]
  | .logical op pos lhs rhs => by
    have hl := linkExpr_issues hp hc lhs
    have hr := linkExpr_issues hp hc rhs
    simp [linkExpr, Expr.sites, Expr.mentions, hl, hr]
  | .var target => by
    simp [linkExpr, Expr.sites, Expr.mentions, linkVar_issues hp]
  | .assign target value => by
    have hv := linkExpr_issues hp hc value
    simp [linkExpr, Expr.sites, Expr.mentions, hv, Site.issue?, Site.complaint?]
  | .call callee args paren => by
    have hcallee := linkExpr_issues hp hc callee
    have hargs : args.flatMap (fun e => (linkExpr around scopes e).issues) =
        args.flatMap fun e => breaches (e.sites ctx initializing) := by
      rw [List.flatMap_def, List.flatMap_def]
      exact congrArg _ (List.map_congr_left fun e he => linkExpr_issues hp hc e)
    simp [linkExpr, Expr.sites, Expr.mentions, hcallee, List.flatMap_map, hargs, List.map_flatMap]
  | .get object field => by
    simpa [linkExpr, Expr.sites, Expr.mentions] using linkExpr_issues hp hc object
  | .set object field value => by
    have ho := linkExpr_issues hp hc object
    have hv := linkExpr_issues hp hc value
    simp [linkExpr, Expr.sites, Expr.mentions, ho, hv]
  | .this target => by
    have hthis := thisIssues_eq hc initializing target.name
    simp only [Expr.sites, Expr.mentions, List.map_cons, List.map_nil, breaches_cons, breaches_nil,
      List.append_nil, ← hthis]
    rw [linkExpr]
    split <;> rfl
  | .super target method => by
    have hsuper := superIssues_eq hc initializing target.name
    simp [linkExpr, Expr.sites, Expr.mentions, hsuper]

theorem linkExpr?_issues (hp : Initializing scopes ctx initializing)
    (hc : around.enclosingClass = ctx.classKind) (e : Option (Expr Unit)) :
    (linkExpr? around scopes e).issues = breaches (Expr.sites? ctx initializing e) := by
  cases e with
  | none => rfl
  | some e => exact linkExpr_issues hp hc e

end Expressions

section Statements

variable {around : Surroundings} {scopes : Scopes} {ctx : Context}

theorem Mirrors.declare_issues (h : Mirrors around scopes ctx) (name : Name) :
    (scopes.declare name).2 = (Site.mk ctx none (.declaration name)).issue?.toList := by
  rcases ctx with _ | ⟨e, outer⟩
  · have hm := h.matched
    cases hm with
    | nil => rfl
  · obtain ⟨names, hnames⟩ := Context.scopes_eq_cons e outer
    have hm := h.matched
    rw [hnames] at hm
    cases hm with
    | cons hs _ =>
      simp only [Scopes.declare, Site.issue?, Site.complaint?, List.head?_cons, Option.any_some,
        decide_eq_true_eq, ← hs name.text]
      split <;> rfl

theorem Mirrors.introduce (h : Mirrors around scopes ctx) (name : Name) :
    Mirrors around (scopes.introduce name).1 (ctx.declare [name.text]) := by
  rw [Scopes.introduce_fst]
  exact h.declare [name.text]

theorem Mirrors.introduceAll_issues (names : List Name) : ∀ {scopes : Scopes} {ctx : Context},
    Mirrors around scopes ctx →
      (scopes.introduceAll names).2 = breaches (declarationSites ctx names) := by
  induction names with
  | nil => exact fun _ => rfl
  | cons name names ih =>
    intro scopes ctx h
    have hrest := ih (h.introduce name)
    rw [Scopes.introduceAll, declarationSites, breaches_cons, ← hrest, ← h.declare_issues name]
    rfl

theorem Mirrors.return_issues (h : Mirrors around scopes ctx) (keyword : Pos) (hasValue : Bool) :
    returnIssues around keyword hasValue =
      (Site.mk ctx none (.giveBack keyword hasValue)).issue?.toList := by
  simp only [returnIssues, h.function, Context.functionKind, Site.issue?, Site.complaint?]
  rcases ctx.routine? with _ | construct
  · rfl
  · rcases construct with _ | _ | ⟨method, inherits⟩
    · rfl
    · rfl
    · dsimp only
      by_cases hn : method = initName <;> cases hasValue <;> simp [hn]
      rfl

theorem Mirrors.notInitializing (h : Mirrors around scopes ctx) : Initializing scopes ctx none := by
  intro name
  refine iff_of_false (fun hp => ?_) (fun hp => absurd hp.2 (by simp))
  rcases scopes with _ | ⟨scope, outer⟩
  · exact absurd hp (by simp [Scopes.isPending])
  · have hpending : scope.get? name = some false := by simpa [Scopes.isPending] using hp
    exact h.settled scope List.mem_cons_self name hpending

theorem Mirrors.superclass_issues (h : Mirrors around scopes ctx) (name : Name)
    (superclass : Option (Reference Unit)) :
    (linkSuperclass scopes name superclass).issues =
      breaches (superclassSites ctx name superclass) := by
  cases superclass with
  | none => rfl
  | some r =>
    simp only [linkSuperclass, linkVar_issues h.notInitializing, superclassSites, breaches_cons,
      breaches_nil, List.append_nil]
    congr 1
    simp only [Site.issue?, Site.complaint?]
    split <;> rfl

/-- In the initializer of a variable only the variable itself is not declared completely. -/
theorem Mirrors.initializing (h : Mirrors around scopes ctx) (own : Name) :
    Initializing (scopes.declare own).1 (ctx.declare [own.text]) (some own) := by
  intro name
  rcases scopes with _ | ⟨scope, outer⟩
  · have hm := h.matched
    rcases ctx with _ | ⟨e, ctx⟩
    · simp [Scopes.declare, Scopes.isPending, Context.declare]
    · obtain ⟨names, hnames⟩ := Context.scopes_eq_cons e ctx
      rw [hnames] at hm
      cases hm
  · rcases ctx with _ | ⟨e, ctx⟩
    · cases h.matched
    · have hne := h.settled scope List.mem_cons_self name
      have hget : (scope.set own.text false).get? name = some false ↔ own.text = name := by
        rw [Bindings.get?_set]
        split
        · simp_all
        · rename_i hn
          exact iff_of_false hne (Ne.symm hn)
      simpa [Scopes.declare, Scopes.isPending, Context.declare] using hget

mutual

/-- Linking a statement finds what its sites break, and goes on with the names that it declares. -/
theorem linkStmt_issues {around : Surroundings} {scopes : Scopes} {ctx : Context}
    (h : Mirrors around scopes ctx) : ∀ stmt : Stmt Unit,
    (linkStmt around scopes stmt).issues = breaches (stmt.sites ctx) ∧
      Mirrors around (linkStmt around scopes stmt).scopes (ctx.declare stmt.introduces)
  | .expression e | .print e => by
    simp only [linkStmt, Stmt.sites, Stmt.introduces, Stmt.declares, Context.declare_nil]
    exact ⟨linkExpr_issues h.notInitializing h.enclosingClass e, h⟩
  | .var name initializer => by
    have hname := h.declare_issues name
    have hi := linkExpr?_issues (h.initializing name)
      ((h.declare [name.text]).enclosingClass) initializer
    simp only [linkStmt, Stmt.sites, Stmt.introduces, Stmt.declares, breaches_cons, hname, hi,
      Scopes.define_declare]
    exact ⟨trivial, h.declare [name.text]⟩
  | .block body => by
    have hb := linkStmts_issues h.block body
    simp only [linkStmt, Stmt.sites, Stmt.introduces, Stmt.declares, Context.declare_nil]
    exact ⟨hb, h⟩
  | .ifThen condition thenPart => by
    have hc := linkExpr_issues h.notInitializing h.enclosingClass condition
    have ht := linkStmt_issues h thenPart
    simp only [linkStmt, Stmt.sites, Stmt.introduces, breaches_append, hc, ht.1]
    exact ⟨trivial, ht.2⟩
  | .ifElse condition thenPart elsePart => by
    have hc := linkExpr_issues h.notInitializing h.enclosingClass condition
    have ht := linkStmt_issues h thenPart
    have he := linkStmt_issues ht.2 elsePart
    simp only [linkStmt, Stmt.sites, Stmt.introduces, breaches_append, hc, ht.1, he.1,
      Context.declare_append]
    exact ⟨trivial, he.2⟩
  | .whileDo condition body => by
    have hc := linkExpr_issues h.notInitializing h.enclosingClass condition
    have hb := linkStmt_issues h body
    simp only [linkStmt, Stmt.sites, Stmt.introduces, breaches_append, hc, hb.1]
    exact ⟨trivial, hb.2⟩
  | .function f => by
    have hname : (scopes.introduce f.name).2 = _ := h.declare_issues f.name
    have hin := h.introduce f.name
    have hf := linkFunction_issues hin.function_start f
    simp only [linkStmt, Stmt.sites, Stmt.introduces, Stmt.declares, breaches_cons, hname, hf]
    exact ⟨trivial, hin⟩
  | .giveBack keyword value => by
    have hk := h.return_issues keyword value.isSome
    have hv := linkExpr?_issues h.notInitializing h.enclosingClass value
    simp only [linkStmt, Stmt.sites, Stmt.introduces, Stmt.declares, Context.declare_nil,
      breaches_cons, hk, hv]
    exact ⟨trivial, h⟩
  | .classDecl name superclass methods => by
    have hname : (scopes.introduce name).2 = _ := h.declare_issues name
    have hin := h.introduce name
    have hs := hin.superclass_issues name superclass
    have hms : methods.flatMap (fun f =>
        (linkFunction { methodSurroundings around superclass.isSome with function := methodKind f }
          (methodScopes (scopes.introduce name).1 superclass.isSome) f).issues) =
        methods.flatMap fun f => breaches (f.sites (ctx.declare [name.text])
          (.method f.name.text superclass.isSome)) := by
      rw [List.flatMap_def, List.flatMap_def]
      exact congrArg _ (List.map_congr_left fun f hf =>
        linkFunction_issues (hin.method_start f superclass.isSome) f)
    simp only [linkStmt, Stmt.sites, Stmt.introduces, Stmt.declares, breaches_cons, breaches_append,
      breaches_flatMap, List.flatMap_map, hname, hs, hms, List.append_assoc, List.cons_append]
    exact ⟨trivial, hin⟩
termination_by stmt => sizeOf stmt

/-- Linking statements in a row finds what their sites break. -/
theorem linkStmts_issues {around : Surroundings} {scopes : Scopes} {ctx : Context}
    (h : Mirrors around scopes ctx) : ∀ stmts : List (Stmt Unit),
    (linkStmts around scopes stmts).issues = breaches (Stmt.sitesOfAll ctx stmts)
  | [] => by
    simp only [linkStmts, Stmt.sitesOfAll, breaches_nil]
  | stmt :: stmts => by
    have hfirst := linkStmt_issues h stmt
    have hrest := linkStmts_issues hfirst.2 stmts
    simp only [linkStmts, Stmt.sitesOfAll, breaches_append, hfirst.1, hrest]
termination_by stmts => sizeOf stmts

/-- Linking a function finds what its sites break. -/
theorem linkFunction_issues {around : Surroundings} {scopes : Scopes} {ctx : Context}
    {construct : Construct} (h : Mirrors around (.empty :: scopes) (⟨construct, []⟩ :: ctx)) :
    ∀ f : Function Unit, (linkFunction around scopes f).issues = breaches (f.sites ctx construct)
  | .mk name params body => by
    have hp := h.introduceAll_issues params
    have hin := h.declare (params.map Name.text)
    rw [← Scopes.introduceAll_fst] at hin
    have hb := linkStmts_issues hin body
    simp only [linkFunction, Function.sites, breaches_append, hp, hb]
    rfl
termination_by f => sizeOf f

end

end Statements

/-- Linking a program finds an issue for each site that breaks a rule, and no other. -/
theorem linkProgram_issues (stmts : List (Stmt Unit)) :
    (linkProgram stmts).issues = breaches (sites stmts) :=
  linkStmts_issues .topLevel stmts

theorem breaches_eq_nil_iff {ss : List Site} :
    breaches ss = [] ↔ ∀ s ∈ ss, ∀ c, ¬Breaks s c := by
  unfold breaches
  rw [List.filterMap_eq_nil_iff]
  refine forall₂_congr fun s _ => ?_
  rw [Site.issue?, Option.map_eq_none_iff, Option.eq_none_iff_forall_ne_some]
  exact forall_congr' fun c => not_congr breaks_iff.symm

namespace Report

/-- A report without a limit takes all that linking finds. -/
theorem link_of_unlimited {r : Report} (h : r.limit = none) (stmts : List (Stmt Unit)) :
    (r.link stmts).1.issues = r.issues ++ (linkProgram stmts).issues ∧
      (r.link stmts).2 = some (linkProgram stmts).tree := by
  obtain ⟨hfull, hissues⟩ := r.noteAll_of_unlimited (linkProgram stmts).issues h
  unfold link
  dsimp only
  generalize r.noteAll (linkProgram stmts).issues = noted at hfull hissues ⊢
  obtain ⟨r', full⟩ := noted
  cases hfull
  exact ⟨hissues, rfl⟩

/-- **A report without a limit takes exactly the breaches of the rules.** Linking a program adds to
it one issue for each site of the program that breaks a rule, in the order of the sites: the issue
is about that rule and anchored at the name or keyword of the site. So nothing is added exactly if
no site breaks a rule. -/
theorem link_reports_breaches (r : Report) (stmts : List (Stmt Unit)) :
    ∃ issues, (({ r with limit := none } : Report).link stmts).1.issues = r.issues ++ issues ∧
      (({ r with limit := none } : Report).link stmts).2 = some (linkProgram stmts).tree ∧
      issues = (sites stmts).filterMap Site.issue? ∧
      (∀ s ∈ sites stmts, ∀ i, s.issue? = some i ↔
        ∃ c, Breaks s c ∧ i = .atLexeme s.mention.pos s.mention.text c) ∧
      (issues = [] ↔ ∀ s ∈ sites stmts, ∀ c, ¬Breaks s c) := by
  obtain ⟨hissues, htree⟩ :=
    link_of_unlimited (rfl : ({ r with limit := none } : Report).limit = none) stmts
  refine ⟨(linkProgram stmts).issues, hissues, htree, linkProgram_issues stmts,
    fun s _ i => Site.issue?_eq_some_iff, ?_⟩
  rw [linkProgram_issues]
  exact breaches_eq_nil_iff

end Report

end LoxKit
