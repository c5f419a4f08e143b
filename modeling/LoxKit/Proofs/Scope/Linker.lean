import LoxKit.Proofs.Scope.Visibility

/-!
# Linkers

A linker goes through a tree and changes a state on the way: it opens and closes scopes, it says
which kinds of function and class it is in, it writes into a table where each reference leads, and
it notes issues in a report. Each construct undoes by hand what it did on its way in. Linking, which
only hands scopes and surroundings down, knows nothing of this; the two come to the same.

A reference is known by its key in the table. A full report ends everything, so a visit need not
come to an end; that depends on the issues and on nothing else.

Headlines:
* `Linker`, `Visit`: the state, and what changes it.
* `Expr.visit`, `Stmt.visit`, `Function.visit`: the visits to a tree, step by step.
* `linkStmt_scopes`: the scopes that linking finds behind a statement.
* `Visit.Follows`, `Visit.Follows.seq`: what a visit does to any state, and two visits in a row.
* `Expr.visit_follows`, `Stmt.visit_follows`: visiting a tree does what linking it says.
-/

namespace LoxKit

/-! ## Visits -/

/-- Where a linker stands: the scopes that are open, what lies around, where the references met so
far lead, and what has been noted. -/
structure Linker (κ : Type) where
  scopes : Scopes
  around : Surroundings
  table : κ → Link
  report : Report

/-- A linker that has visited nothing. -/
def Linker.start {κ : Type} (report : Report) : Linker κ :=
  ⟨[], .topLevel, fun _ => none, report⟩

/-- What changes a linker. There is nothing behind it if the report gets full. -/
abbrev Visit (κ : Type) := StateT (Linker κ) Option

/-- Writes a link into a table. A reference that leads nowhere leaves no trace. -/
def record {κ : Type} [DecidableEq κ] (table : κ → Link) (key : κ) (link : Link) : κ → Link :=
  fun k => if k = key then link.or (table k) else table k

namespace Visit

variable {κ : Type}

/-- Where the linker stands. -/
def here : Visit κ (Linker κ) :=
  get

/-- Opens a scope. -/
def enter (scope : Scope) : Visit κ Unit :=
  modify fun l => { l with scopes := scope :: l.scopes }

/-- Closes the innermost scope. -/
def leave : Visit κ Unit :=
  modify fun l => { l with scopes := l.scopes.tail }

/-- Says which kind of function the linker is in. -/
def setFunction (kind : FunctionKind) : Visit κ Unit :=
  modify fun l => { l with around := { l.around with function := kind } }

/-- Says which kind of class the linker is in. -/
def setClass (kind : ClassKind) : Visit κ Unit :=
  modify fun l => { l with around := { l.around with enclosingClass := kind } }

/-- Notes issues one by one, as long as the report is not full. -/
def complain (issues : List Issue) : Visit κ Unit := fun l =>
  match l.report.noteAll issues with
  | (_, true) => none
  | (report, false) => some ((), { l with report })

/-- Starts the declaration of a name. -/
def declare (name : Name) : Visit κ Unit := do
  complain ((← here).scopes.declare name).2
  modify fun l => { l with scopes := (l.scopes.declare name).1 }

/-- Completes the declaration of a name. -/
def define (name : Name) : Visit κ Unit :=
  modify fun l => { l with scopes := l.scopes.define name }

/-- Declares a name completely. -/
def introduce (name : Name) : Visit κ Unit := do
  declare name
  define name

/-- Makes visits one after the other. -/
def inOrder : List (Visit κ Unit) → Visit κ Unit
  | [] => pure ()
  | v :: vs => do
    v
    inOrder vs

variable [DecidableEq κ]

/-- Looks for a name in the scopes that are open, the innermost first. -/
def search (key : κ) (name : String) : Visit κ Unit :=
  modify fun l => { l with table := record l.table key (l.scopes.hops? name) }

end Visit

section Trees

open Visit

variable {κ : Type} [DecidableEq κ]

/-- Visits a variable that is read. -/
def Reference.visit (r : Reference κ) : Visit κ Unit := do
  complain (if (← here).scopes.isPending r.name.text then
    [.atLexeme r.name.pos r.name.text .readInOwnInitializer] else [])
  search r.link r.name.text

/-- Visits an expression. -/
def Expr.visit : Expr κ → Visit κ Unit
  | .literal _ _ => pure ()
  | .grouping inner => inner.visit
  | .unary _ _ arg => arg.visit
  | .binary _ _ lhs rhs => do
    lhs.visit
    rhs.visit
  | .logical _ _ lhs rhs => do
    lhs.visit
    rhs.visit
  | .var target => target.visit
  | .assign target value => do
    value.visit
    search target.link target.name.text
  | .call callee args _ => do
    callee.visit
    inOrder (args.map visit)
  | .get object _ => object.visit
  | .set object _ value => do
    value.visit
    object.visit
  | .this target => do
    if (← here).around.enclosingClass = .none then
      complain [.atLexeme target.name.pos target.name.text .thisOutsideClass]
    else search target.link target.name.text
  | .super target _ => do
    complain ((superComplaint? (← here).around).toList.map
      (.atLexeme target.name.pos target.name.text))
    search target.link target.name.text

/-- Visits an expression that may be missing. -/
def Expr.visit? : Option (Expr κ) → Visit κ Unit
  | none => pure ()
  | some e => e.visit

/-- Visits the superclass of a class, if it has one, and opens the scope of `super`. -/
def superclassVisit (name : Name) : Option (Reference κ) → Visit κ Unit
  | none => pure ()
  | some r => do
    complain (if r.name.text = name.text then
      [.atLexeme r.name.pos r.name.text .inheritsFromItself] else [])
    setClass .subclass
    r.visit
    enter (.single Keyword.super.word)

/-- Closes the scope of `super`, if there is one. -/
def superclassLeave : Option (Reference κ) → Visit κ Unit
  | none => pure ()
  | some _ => leave

mutual

/-- Visits a statement. What a construct sets on the way in, it sets back on the way out. -/
def Stmt.visit : Stmt κ → Visit κ Unit
  | .expression e => e.visit
  | .print e => e.visit
  | .var name initializer => do
    declare name
    Expr.visit? initializer
    define name
  | .block body => do
    enter .empty
    Stmt.visitAll body
    leave
  | .ifThen condition thenPart => do
    condition.visit
    thenPart.visit
  | .ifElse condition thenPart elsePart => do
    condition.visit
    thenPart.visit
    elsePart.visit
  | .whileDo condition body => do
    condition.visit
    body.visit
  | .function f => do
    introduce f.name
    f.visit .function
  | .giveBack keyword value => do
    complain (returnIssues (← here).around keyword value.isSome)
    Expr.visit? value
  | .classDecl name superclass methods => do
    let outside := (← here).around.enclosingClass
    setClass .root
    introduce name
    superclassVisit name superclass
    enter (.single Keyword.this.word)
    inOrder (methods.map fun f => f.visit (methodKind f.erase))
    leave
    superclassLeave superclass
    setClass outside

/-- Visits statements one after the other. -/
def Stmt.visitAll : List (Stmt κ) → Visit κ Unit
  | [] => pure ()
  | stmt :: stmts => do
    stmt.visit
    Stmt.visitAll stmts

/-- Visits a function of some kind. -/
def Function.visit (kind : FunctionKind) : Function κ → Visit κ Unit
  | .mk _ params body => do
    let outside := (← here).around.function
    setFunction kind
    enter .empty
    inOrder (params.map introduce)
    Stmt.visitAll body
    leave
    setFunction outside

end

end Trees

/-! ## Scopes behind a statement -/

/-- Names that are declared completely, one after the other, go to the innermost scope. -/
theorem Scopes.addAll_cons (scope : Scope) (outer : Scopes) (names : List String) :
    ∃ top : Scope, names.foldl Scopes.add (scope :: outer) = top :: outer ∧
      ∀ n, top.get? n = if n ∈ names then some true else scope.get? n := by
  induction names generalizing scope with
  | nil => exact ⟨scope, rfl, fun n => (if_neg List.not_mem_nil).symm⟩
  | cons name names ih =>
    obtain ⟨top, htop, hget⟩ := ih ((scope.set name false).set name true)
    refine ⟨top, htop, fun n => ?_⟩
    rw [hget]
    by_cases hn : n ∈ names
    · rw [if_pos hn, if_pos (List.mem_cons_of_mem name hn)]
    · by_cases heq : n = name
      · subst heq
        rw [if_neg hn, if_pos List.mem_cons_self, Bindings.get?_set_self]
      · rw [if_neg hn, if_neg (by simp [heq, hn]), Bindings.get?_set_of_ne _ _ heq,
          Bindings.get?_set_of_ne _ _ heq]

theorem Scopes.tail_addAll (names : List String) (scopes : Scopes) :
    (names.foldl Scopes.add scopes).tail = scopes.tail := by
  induction names generalizing scopes with
  | nil => rfl
  | cons name names ih =>
    rw [List.foldl_cons, ih]
    cases scopes <;> rfl

/-- A statement adds to the scopes the names that it declares, those of what it guards included. -/
theorem linkStmt_scopes (around : Surroundings) : ∀ (stmt : Stmt Unit) (scopes : Scopes),
    (linkStmt around scopes stmt).scopes = stmt.introduces.foldl Scopes.add scopes
  | .expression _, _ | .print _, _ | .block _, _ | .giveBack _ _, _ => by
    rw [linkStmt]
    rfl
  | .var name _, scopes => by
    rw [linkStmt]
    exact Scopes.define_declare scopes name
  | .function f, scopes => by
    rw [linkStmt]
    exact Scopes.introduce_fst scopes f.name
  | .classDecl name _ _, scopes => by
    rw [linkStmt]
    exact Scopes.introduce_fst scopes name
  | .ifThen _ thenPart, scopes => by
    rw [linkStmt, Stmt.introduces]
    exact linkStmt_scopes around thenPart scopes
  | .ifElse _ thenPart elsePart, scopes => by
    rw [linkStmt, Stmt.introduces, List.foldl_append, ← linkStmt_scopes around thenPart]
    exact linkStmt_scopes around elsePart _
  | .whileDo _ body, scopes => by
    rw [linkStmt, Stmt.introduces]
    exact linkStmt_scopes around body scopes

theorem linkStmts_scopes (around : Surroundings) (stmts : List (Stmt Unit)) :
    ∀ scopes : Scopes, (linkStmts around scopes stmts).scopes =
      (stmts.flatMap Stmt.introduces).foldl Scopes.add scopes := by
  induction stmts with
  | nil =>
    intro scopes
    rw [linkStmts]
    rfl
  | cons stmt stmts ih =>
    intro scopes
    rw [linkStmts, ih, linkStmt_scopes, List.flatMap_cons, List.foldl_append]

/-- Statements in a row change nothing below the innermost scope. -/
theorem tail_linkStmts (around : Surroundings) (stmts : List (Stmt Unit)) (scopes : Scopes) :
    (linkStmts around scopes stmts).scopes.tail = scopes.tail := by
  rw [linkStmts_scopes, Scopes.tail_addAll]

/-- In a statement that has been read, what is guarded declares nothing, so the names are those that
the statement declares itself. -/
theorem Stmt.Proper.introduces_eq {ρ : Type} {stmt : Stmt ρ} (h : stmt.Proper) :
    stmt.erase.introduces = stmt.declares := by
  cases h with
  | expression | print | var | block | giveBack | classDecl =>
    rw [erase]
    rfl
  | @function f _ =>
    obtain ⟨name, params, body⟩ := f
    rw [erase, Function.erase]
    rfl
  | ifThen _ ht hd =>
    rw [erase, introduces, introduces_eq ht]
    exact hd
  | ifElse _ ht hd he hd' =>
    rw [erase, introduces, introduces_eq ht, introduces_eq he, hd, hd']
    rfl
  | whileDo _ hb hd =>
    rw [erase, introduces, introduces_eq hb]
    exact hd

/-! ## What a visit does -/

/-- A reference that has been met: what it is, its key, and where it leads. -/
structure Encounter (κ : Type) where
  mention : Mention
  key : κ
  link : Link

namespace Encounter

variable {κ : Type}

/-- The reference with its key. -/
def keyed (e : Encounter κ) : Mention × κ :=
  (e.mention, e.key)

/-- The reference with its link. -/
def linked (e : Encounter κ) : Mention × Link :=
  (e.mention, e.link)

end Encounter

/-- What is behind a visit: where the linker stands, the links that it has found and the issues. -/
structure Behind where
  around : Surroundings
  scopes : Scopes
  links : List (Mention × Link)
  issues : List Issue

section Follows

variable {κ : Type} [DecidableEq κ]

/-- A table with the links of references that have been met one after the other. -/
def recordAll (table : κ → Link) (met : List (Encounter κ)) : κ → Link :=
  met.foldl (fun table e => record table e.key e.link) table

/-- A linker behind a visit, unless the report has become full. -/
def Linker.after (l : Linker κ) (around : Surroundings) (scopes : Scopes) (issues : List Issue)
    (met : List (Encounter κ)) : Option (Unit × Linker κ) :=
  match l.report.noteAll issues with
  | (_, true) => none
  | (report, false) => some ((), ⟨scopes, around, recordAll l.table met, report⟩)

/-- With these surroundings and scopes, whatever is in the table and in the report, a visit meets
these references and leaves behind what is said. -/
def Visit.Follows (v : Visit κ Unit) (around : Surroundings) (scopes : Scopes)
    (refs : List (Mention × κ)) (b : Behind) : Prop :=
  ∃ met : List (Encounter κ), met.map Encounter.keyed = refs ∧ met.map Encounter.linked = b.links ∧
    ∀ table report, v ⟨scopes, around, table, report⟩ =
      Linker.after ⟨scopes, around, table, report⟩ b.around b.scopes b.issues met

/-- What is behind two visits in a row. -/
theorem Linker.after_bind (l : Linker κ) {around around' : Surroundings} {scopes scopes' : Scopes}
    {issues issues' : List Issue} {met met' : List (Encounter κ)} :
    ((l.after around scopes issues met).bind fun p => p.2.after around' scopes' issues' met') =
      l.after around' scopes' (issues ++ issues') (met ++ met') := by
  unfold after
  rw [Report.noteAll_append]
  generalize l.report.noteAll issues = noted
  obtain ⟨report, full⟩ := noted
  cases full with
  | true => rfl
  | false =>
    simp only [Option.bind_some, Bool.false_eq_true, if_false, recordAll, List.foldl_append]

namespace Visit

variable {a a' a'' : Surroundings} {s s' s'' : Scopes}
  {refs refs' : List (Mention × κ)} {links links' : List (Mention × Link)}
  {issues issues' : List Issue} {v w : Visit κ Unit} {b : Behind}

/-- One visit after the other. -/
theorem Follows.seq (hv : v.Follows a s refs ⟨a', s', links, issues⟩)
    (hw : w.Follows a' s' refs' ⟨a'', s'', links', issues'⟩) :
    Follows (do v; w) a s (refs ++ refs') ⟨a'', s'', links ++ links', issues ++ issues'⟩ := by
  obtain ⟨met, hkeyed, hlinked, hv⟩ := hv
  obtain ⟨met', hkeyed', hlinked', hw⟩ := hw
  refine ⟨met ++ met', ?_, ?_, fun table report => ?_⟩
  · rw [List.map_append, hkeyed, hkeyed']
  · rw [List.map_append, hlinked, hlinked']
  · rw [← Linker.after_bind]
    show (v _).bind _ = _
    rw [hv]
    unfold Linker.after
    cases Report.noteAll report issues with
    | mk noted full =>
      cases full with
      | true => rfl
      | false => exact hw _ _

theorem Follows.done : Follows (pure () : Visit κ Unit) a s [] ⟨a, s, [], []⟩ :=
  ⟨[], rfl, rfl, fun _ _ => rfl⟩

/-- A visit that first looks where the linker stands. -/
theorem Follows.looking {f : Linker κ → Visit κ Unit} (h : w.Follows a s refs b)
    (hf : ∀ table report, f ⟨s, a, table, report⟩ = w) :
    Follows (do let l ← here; f l) a s refs b := by
  obtain ⟨met, hkeyed, hlinked, hw⟩ := h
  refine ⟨met, hkeyed, hlinked, fun table report => ?_⟩
  rw [← hw, ← hf table report]
  rfl

/-- A visit that does nothing but take the linker somewhere else. -/
theorem Follows.moving {f : Linker κ → Linker κ}
    (h : ∀ table report, f ⟨s, a, table, report⟩ = ⟨s', a', table, report⟩) :
    Follows (modify f) a s [] ⟨a', s', [], []⟩ :=
  ⟨[], rfl, rfl, fun table report => congrArg (fun l => some ((), l)) (h table report)⟩

theorem enter_follows (scope : Scope) :
    Follows (enter scope : Visit κ Unit) a s [] ⟨a, scope :: s, [], []⟩ :=
  .moving fun _ _ => rfl

theorem leave_follows (h : s.tail = s') :
    Follows (leave : Visit κ Unit) a s [] ⟨a, s', [], []⟩ :=
  .moving fun _ _ => by rw [h]

theorem setFunction_follows (kind : FunctionKind) : Follows (setFunction kind : Visit κ Unit) a
    s [] ⟨{ a with function := kind }, s, [], []⟩ :=
  .moving fun _ _ => rfl

theorem setClass_follows (kind : ClassKind) : Follows (setClass kind : Visit κ Unit) a
    s [] ⟨{ a with enclosingClass := kind }, s, [], []⟩ :=
  .moving fun _ _ => rfl

theorem define_follows (name : Name) : Follows (define name : Visit κ Unit) a s []
    ⟨a, s.define name, [], []⟩ :=
  .moving fun _ _ => rfl

theorem complain_follows (issues : List Issue) : Follows (complain issues : Visit κ Unit) a s
    [] ⟨a, s, [], issues⟩ :=
  ⟨[], rfl, rfl, fun _ _ => rfl⟩

/-- Where a reference is not even searched for, it is as if it led nowhere. -/
theorem miss_follows (m : Mention) (key : κ) (issues : List Issue) :
    Follows (complain issues) a s [(m, key)] ⟨a, s, [(m, none)], issues⟩ := by
  refine ⟨[⟨m, key, none⟩], rfl, rfl, fun table report => ?_⟩
  have hrecord : recordAll table [⟨m, key, none⟩] = table := by
    funext k
    simp only [recordAll, List.foldl_cons, List.foldl_nil, record, Option.none_or, ite_self]
  unfold Linker.after
  rw [hrecord]
  rfl

theorem search_follows (m : Mention) (key : κ) (name : String) :
    Follows (search key name) a s [(m, key)] ⟨a, s, [(m, s.hops? name)], []⟩ :=
  ⟨[⟨m, key, s.hops? name⟩], rfl, rfl, fun _ _ => rfl⟩

theorem declare_follows (name : Name) : Follows (declare name : Visit κ Unit) a s []
    ⟨a, (s.declare name).1, [], (s.declare name).2⟩ := by
  have hmove : Follows (modify fun l => { l with scopes := (l.scopes.declare name).1 }
      : Visit κ Unit) a s [] ⟨a, (s.declare name).1, [], []⟩ := .moving fun _ _ => rfl
  have hseq := (complain_follows (s.declare name).2).seq hmove
  simp only [List.append_nil] at hseq
  exact .looking hseq fun _ _ => rfl

theorem introduce_follows (name : Name) : Follows (introduce name : Visit κ Unit) a s []
    ⟨a, (s.introduce name).1, [], (s.introduce name).2⟩ := by
  have hdeclare : Follows (declare name : Visit κ Unit) a s [] _ := declare_follows name
  have hseq := hdeclare.seq (define_follows name)
  simp only [List.append_nil] at hseq
  exact hseq

/-- Visits that do not move the linker. -/
theorem inOrder_follows {α : Type} {f : α → Visit κ Unit} {refs : α → List (Mention × κ)}
    {links : α → List (Mention × Link)} {issues : α → List Issue} : ∀ xs : List α,
    (∀ x ∈ xs, Follows (f x) a s (refs x) ⟨a, s, links x, issues x⟩) →
      Follows (inOrder (xs.map f)) a s (xs.flatMap refs)
        ⟨a, s, xs.flatMap links, xs.flatMap issues⟩
  | [], _ => .done
  | x :: xs, h => by
    rw [List.forall_mem_cons] at h
    simp only [List.map_cons, List.flatMap_cons]
    exact h.1.seq (inOrder_follows xs h.2)

theorem introduceAll_follows (names : List Name) : ∀ {s : Scopes},
    Follows (inOrder (names.map introduce) : Visit κ Unit) a s []
      ⟨a, (s.introduceAll names).1, [], (s.introduceAll names).2⟩ := by
  induction names with
  | nil => exact .done
  | cons name names ih => exact (introduce_follows name).seq ih

end Visit

open Visit

variable {a : Surroundings} {s : Scopes}

theorem Reference.visit_follows (r : Reference κ) : r.visit.Follows a s
    [(.lookup r.name, r.link)]
    ⟨a, s, [(.lookup r.name, (linkVar s r.erase).tree.link)], (linkVar s r.erase).issues⟩ := by
  have hseq := (complain_follows (a := a) (s := s) (linkVar s r.erase).issues).seq
    (search_follows (.lookup r.name) r.link r.name.text)
  simp only [List.append_nil] at hseq
  exact .looking hseq fun _ _ => rfl

/-- Visiting an expression does what linking it says, and does not move the linker. -/
theorem Expr.visit_follows : ∀ e : Expr κ, e.visit.Follows a s e.references
    ⟨a, s, (linkExpr a s e.erase).tree.references, (linkExpr a s e.erase).issues⟩
  | .literal value token => by
    simp only [visit, erase, linkExpr, references]
    exact .done
  | .grouping inner | .unary _ _ inner | .get inner _ => by
    simp only [visit, erase, linkExpr, references, Linked.map_tree, Linked.map_issues]
    exact visit_follows inner
  | .binary _ _ lhs rhs | .logical _ _ lhs rhs | .set rhs _ lhs => by
    simp only [visit, erase, linkExpr, references]
    exact (visit_follows lhs).seq (visit_follows rhs)
  | .var target => by
    simp only [visit, erase, linkExpr, references, Linked.map]
    exact target.visit_follows
  | .assign target value => by
    have hseq := (visit_follows value).seq
      (search_follows (.assignment target.name) target.link target.name.text)
    simpa only [visit, erase, Reference.erase, linkExpr, references, Linked.map_tree,
      Linked.map_issues, List.append_nil] using hseq
  | .call callee args paren => by
    have hargs := inOrder_follows args fun arg _ => visit_follows arg
    simp only [visit, erase, linkExpr, references, List.map_map, List.flatMap_map]
    exact (visit_follows callee).seq hargs
  | .this target => by
    by_cases hk : a.enclosingClass = .none
    · simp only [visit, erase, linkExpr, if_pos hk, references]
      exact .looking (miss_follows (.this target.name) target.link _) fun _ _ => if_pos hk
    · simp only [visit, erase, linkExpr, if_neg hk, references]
      exact .looking (search_follows (.this target.name) target.link target.name.text)
        fun _ _ => if_neg hk
  | .super target method => by
    have hseq := (complain_follows (a := a) (s := s) ((superComplaint? a).toList.map
      (.atLexeme target.name.pos target.name.text))).seq
      (search_follows (.super target.name) target.link target.name.text)
    simp only [List.append_nil] at hseq
    simp only [visit, erase, linkExpr, references]
    exact .looking hseq fun _ _ => rfl

theorem Expr.visit?_follows (e : Option (Expr κ)) : (Expr.visit? e).Follows a s
    (Expr.references? e)
    ⟨a, s, Expr.references? (linkExpr? a s (e.map Expr.erase)).tree,
      (linkExpr? a s (e.map Expr.erase)).issues⟩ := by
  cases e with
  | none => exact .done
  | some e => exact e.visit_follows

/-- The scopes around `this` in a class. -/
def superScopes (scopes : Scopes) (hasSuperclass : Bool) : Scopes :=
  if hasSuperclass then .single Keyword.super.word :: scopes else scopes

/-- What lies around a class behind the mention of its superclass. -/
theorem superclassVisit_follows (name : Name) (superclass : Option (Reference κ))
    (hroot : a.enclosingClass = .root) :
    (superclassVisit name superclass).Follows a s (superclassReferences superclass)
      ⟨methodSurroundings a superclass.isSome, superScopes s superclass.isSome,
        superclassReferences (linkSuperclass s name (superclass.map Reference.erase)).tree,
        (linkSuperclass s name (superclass.map Reference.erase)).issues⟩ := by
  cases superclass with
  | none =>
    have haround : methodSurroundings a false = a := by
      rw [methodSurroundings, ← hroot]
      rfl
    simp only [Option.isSome_none, haround]
    exact .done
  | some r =>
    have hvisit := (setClass_follows (a := a) (s := s) .subclass).seq
      (r.visit_follows.seq (enter_follows (.single Keyword.super.word)))
    have hseq := (complain_follows (if r.name.text = name.text then
      [.atLexeme r.name.pos r.name.text .inheritsFromItself] else [])).seq hvisit
    simp only [List.append_nil, List.nil_append] at hseq
    exact hseq

theorem superclassLeave_follows (superclass : Option (Reference κ)) :
    (superclassLeave superclass).Follows a (superScopes s superclass.isSome) [] ⟨a, s, [], []⟩ := by
  cases superclass with
  | none => exact .done
  | some _ => exact leave_follows rfl

mutual

/-- Visiting a statement does what linking it says. -/
theorem Stmt.visit_follows {a : Surroundings} {s : Scopes} : ∀ stmt : Stmt κ,
    stmt.visit.Follows a s stmt.references
      ⟨a, (linkStmt a s stmt.erase).scopes, (linkStmt a s stmt.erase).tree.references,
        (linkStmt a s stmt.erase).issues⟩
  | .expression e | .print e => by
    simp only [Stmt.visit, Stmt.erase, linkStmt, Stmt.references]
    exact e.visit_follows
  | .var name initializer => by
    have hseq := (declare_follows (a := a) (s := s) name).seq
      ((Expr.visit?_follows initializer).seq (define_follows name))
    simpa only [Stmt.visit, Stmt.erase, linkStmt, Stmt.references, List.append_nil,
      List.nil_append] using hseq
  | .block body => by
    have htail : (linkStmts a (.empty :: s) (body.map Stmt.erase)).scopes.tail = s :=
      tail_linkStmts a (body.map Stmt.erase) (.empty :: s)
    have hseq := (enter_follows .empty).seq
      ((Stmt.visitAll_follows body).seq (leave_follows htail))
    simpa only [Stmt.visit, Stmt.erase, linkStmt, Stmt.references, List.append_nil,
      List.nil_append] using hseq
  | .ifThen condition thenPart => by
    simp only [Stmt.visit, Stmt.erase, linkStmt, Stmt.references]
    exact condition.visit_follows.seq thenPart.visit_follows
  | .ifElse condition thenPart elsePart => by
    simp only [Stmt.visit, Stmt.erase, linkStmt, Stmt.references, List.append_assoc]
    exact condition.visit_follows.seq (thenPart.visit_follows.seq elsePart.visit_follows)
  | .whileDo condition body => by
    simp only [Stmt.visit, Stmt.erase, linkStmt, Stmt.references]
    exact condition.visit_follows.seq body.visit_follows
  | .function f => by
    have hseq := (introduce_follows (a := a) (s := s) f.name).seq (f.visit_follows .function)
    simpa only [Stmt.visit, Stmt.erase, linkStmt, Stmt.references, Function.erase_name,
      List.nil_append] using hseq
  | .giveBack keyword value => by
    have hseq := (complain_follows (a := a) (s := s) (returnIssues a keyword value.isSome)).seq
      (Expr.visit?_follows value)
    simp only [List.nil_append] at hseq
    simp only [Stmt.visit, Stmt.erase, linkStmt, Stmt.references, Option.isSome_map]
    exact .looking hseq fun _ _ => rfl
  | .classDecl name superclass methods => by
    have hmethods := inOrder_follows (a := methodSurroundings a superclass.isSome)
      (s := methodScopes (s.introduce name).1 superclass.isSome) methods
      fun f _ => f.visit_follows (methodKind f.erase)
    have hback := hmethods.seq ((leave_follows rfl).seq
      ((superclassLeave_follows superclass).seq (setClass_follows a.enclosingClass)))
    have hin := (superclassVisit_follows (a := { a with enclosingClass := .root }) name
      superclass rfl).seq ((enter_follows (.single Keyword.this.word)).seq hback)
    have hseq := (setClass_follows (a := a) .root).seq ((introduce_follows name).seq hin)
    simp only [List.append_nil, List.nil_append] at hseq
    simp only [Stmt.visit, Stmt.erase, linkStmt, Stmt.references, Option.isSome_map, List.map_map,
      List.flatMap_map, List.append_assoc]
    exact .looking hseq fun _ _ => rfl
termination_by stmt => sizeOf stmt

theorem Stmt.visitAll_follows {a : Surroundings} {s : Scopes} : ∀ stmts : List (Stmt κ),
    (Stmt.visitAll stmts).Follows a s (Stmt.referencesOfAll stmts)
      ⟨a, (linkStmts a s (stmts.map Stmt.erase)).scopes,
        Stmt.referencesOfAll (linkStmts a s (stmts.map Stmt.erase)).tree,
        (linkStmts a s (stmts.map Stmt.erase)).issues⟩
  | [] => by
    simp only [Stmt.visitAll, List.map_nil, linkStmts, Stmt.referencesOfAll]
    exact .done
  | stmt :: stmts => by
    simp only [Stmt.visitAll, List.map_cons, linkStmts, Stmt.referencesOfAll]
    exact stmt.visit_follows.seq (Stmt.visitAll_follows stmts)
termination_by stmts => sizeOf stmts

theorem Function.visit_follows {a : Surroundings} {s : Scopes} (kind : FunctionKind) :
    ∀ f : Function κ, (f.visit kind).Follows a s f.references
      ⟨a, s, (linkFunction { a with function := kind } s f.erase).tree.references,
        (linkFunction { a with function := kind } s f.erase).issues⟩
  | .mk name params body => by
    have htail : (linkStmts { a with function := kind }
        (Scopes.introduceAll (.empty :: s) params).1 (body.map Stmt.erase)).scopes.tail =
          s := by
      rw [tail_linkStmts, Scopes.introduceAll_fst, Scopes.tail_addAll]
      rfl
    have hback := (Stmt.visitAll_follows body).seq
      ((leave_follows htail).seq (setFunction_follows a.function))
    have hseq := (setFunction_follows (a := a) kind).seq
      ((enter_follows .empty).seq ((introduceAll_follows params).seq hback))
    simp only [List.append_nil, List.nil_append] at hseq
    simp only [Function.visit, Function.erase, linkFunction, Function.references]
    exact .looking hseq fun _ _ => rfl
termination_by f => sizeOf f

end

end Follows

end LoxKit
