import LoxKit.Proofs.Renaming.Scopes

/-!
# Linking what is renamed

Linking a renamed program gives the renamed program again, with the same links and without issues,
and what is linked before and after is related in the way that lets both run side by side. The name
of a function or a class is never the one that is renamed, since a local scope declares no name
twice.

Headlines:
* `Regular.nodup_declares`: no name is declared twice in a local scope.
* `StmtRelinked`, `FunctionRelinked`: what linking makes of renamed trees.
* **`relinked_program`**: what it makes of a renamed program.
-/

namespace LoxKit

/-! ## Declarations -/

section Declarations

open Scopes

variable {around : Surroundings} {scopes : Scopes} {declared : List String}
  {names : List (List String)}

theorem declare_fresh (hm : Matches scopes (declared :: names)) {name : Name}
    (hc : (scopes.declare name).2 = []) : name.text ∉ declared := by
  cases hm with
  | @cons scope _ scopes _ hs _ =>
    intro hn
    have hcontains : Bindings.contains scope name.text = true := (hs name.text).mpr hn
    simp only [Scopes.declare, if_pos hcontains] at hc
    exact absurd hc (List.cons_ne_nil _ _)

/-- What a statement declares was not declared before it. -/
theorem Regular.declares_fresh {st : Stmt Unit}
    (h : Regular ⟨around, scopes, .stmt st⟩ (declared :: names)) :
    ∀ x ∈ st.declares, x ∉ declared := by
  have hc : (linkStmt around scopes st).issues = [] := h.clean
  have hm : Matches scopes (declared :: names) := h.matched
  cases st with
  | var name initializer =>
    rw [linkStmt, List.append_eq_nil_iff] at hc
    exact List.forall_mem_singleton.mpr (declare_fresh hm hc.1)
  | function f =>
    rw [linkStmt, List.append_eq_nil_iff] at hc
    exact List.forall_mem_singleton.mpr (declare_fresh hm hc.1)
  | classDecl name superclass methods =>
    rw [linkStmt, List.append_eq_nil_iff, List.append_eq_nil_iff] at hc
    exact List.forall_mem_singleton.mpr (declare_fresh hm hc.1.1)
  | expression | print | block | ifThen | ifElse | whileDo | giveBack =>
    exact fun x hx => absurd hx List.not_mem_nil

/-- No name is declared twice in a local scope. -/
theorem Regular.nodup_declares {sts : List (Stmt Unit)}
    (h : Regular ⟨around, scopes, .stmts sts⟩ (declared :: names)) :
    (sts.flatMap Stmt.declares).Nodup ∧ ∀ x ∈ sts.flatMap Stmt.declares, x ∉ declared := by
  induction sts generalizing scopes declared with
  | nil => exact ⟨List.nodup_nil, fun x hx => absurd hx List.not_mem_nil⟩
  | cons st sts ih =>
    have hfirst : Regular ⟨around, scopes, .stmt st⟩ (declared :: names) := by
      have hpart := h.part (i := 0) rfl
      rwa [show Place.declaresAt ⟨around, scopes, .stmts (st :: sts)⟩ 0 = [] from rfl,
        declareIn_nil] at hpart
    have hrest : Regular ⟨around, (linkStmt around scopes st).scopes, .stmts sts⟩
        ((declared ++ st.declares) :: names) := h.part (i := 1) rfl
    obtain ⟨hnodup, hfresh⟩ := ih hrest
    have hsingle : st.declares.Nodup := by
      cases st <;> first | exact List.nodup_nil | exact List.nodup_singleton _
    rw [List.flatMap_cons]
    refine ⟨List.nodup_append.mpr ⟨hsingle, hnodup, fun x hx y hy hxy => ?_⟩, fun x hx => ?_⟩
    · exact hfresh y hy (List.mem_append_right _ (hxy ▸ hx))
    · rcases List.mem_append.mp hx with hx | hx
      · exact hfirst.declares_fresh x hx
      · exact fun hd => hfresh x hx (List.mem_append_left _ hd)

theorem text_mem_declares {sts : List (Stmt Unit)} {name : Name}
    (h : name ∈ sts.filterMap Stmt.declaredVar?) : name.text ∈ sts.flatMap Stmt.declares := by
  obtain ⟨st, hst, hvar⟩ := List.mem_filterMap.mp h
  refine List.mem_flatMap.mpr ⟨st, hst, ?_⟩
  cases st <;> cases hvar
  exact List.mem_singleton_self _

/-- A local variable has the only declaration of its name in its scope. -/
theorem Regular.only_declaration {sts : List (Stmt Unit)}
    (h : Regular ⟨around, scopes, .stmts sts⟩ (declared :: names)) {target : Name}
    (ht : target.text ∈ declared ∨ target ∈ sts.filterMap Stmt.declaredVar?) :
    ∀ st ∈ sts, target.text ∈ st.declares → st.declaredVar? = some target := by
  obtain ⟨hnodup, hfresh⟩ := h.nodup_declares
  intro st hst hmem
  rcases ht with ht | ht
  · exact absurd ht (hfresh _ (List.mem_flatMap.mpr ⟨st, hst, hmem⟩))
  · obtain ⟨other, hother, hvar⟩ := List.mem_filterMap.mp ht
    by_cases heq : st = other
    · rw [heq, hvar]
    · have hmem' : target.text ∈ other.declares := by
        cases other <;> cases hvar
        exact List.mem_singleton_self _
      have hsymm : Std.Symm (Function.onFun List.Disjoint (@Stmt.declares Unit)) :=
        ⟨fun _ _ h => List.Disjoint.symm h⟩
      exact absurd hmem' ((List.nodup_flatMap.mp hnodup).2.forall hst hother heq hmem)

/-- No parameter is declared twice. -/
theorem nodup_introduceAll {params : List Name} (hm : Matches scopes (declared :: names))
    (hc : (scopes.introduceAll params).2 = []) :
    (params.map Name.text).Nodup ∧ ∀ p ∈ params, p.text ∉ declared := by
  induction params generalizing scopes declared with
  | nil => exact ⟨List.nodup_nil, fun p hp => absurd hp List.not_mem_nil⟩
  | cons p params ih =>
    rw [introduceAll, List.append_eq_nil_iff] at hc
    have hm' : Matches (scopes.introduce p).1 ((declared ++ [p.text]) :: names) := by
      rw [introduce_fst]
      exact hm.add p.text
    obtain ⟨hnodup, hfresh⟩ := ih hm' hc.2
    refine ⟨List.nodup_cons.mpr ⟨fun hp => ?_, hnodup⟩, fun q hq => ?_⟩
    · obtain ⟨q, hq, heq⟩ := List.mem_map.mp hp
      exact hfresh q hq (List.mem_append_right _ (List.mem_singleton.mpr heq))
    · rcases List.mem_cons.mp hq with rfl | hq
      · exact declare_fresh hm hc.1
      · exact fun hd => hfresh q hq (List.mem_append_left _ hd)

/-- Linking keeps the variables that statements declare. -/
theorem declaredVar?_linkStmts (around : Surroundings) (scopes : Scopes) (sts : List (Stmt Unit)) :
    (linkStmts around scopes sts).tree.filterMap Stmt.declaredVar? =
      sts.filterMap Stmt.declaredVar? := by
  induction sts generalizing scopes with
  | nil => rw [linkStmts]; rfl
  | cons st sts ih =>
    have hfirst : (linkStmt around scopes st).tree.declaredVar? = st.declaredVar? := by
      cases st <;> rw [linkStmt] <;> rfl
    rw [linkStmts, List.filterMap_cons, List.filterMap_cons, hfirst, ih]

end Declarations

/-! ## Renamed statements -/

/-- A statement `u` that is a renamed statement, linked, and what linking makes of it: the same
again, without issues. -/
structure StmtRelinked (target : Name) (new : String) (flags : List Bool) (around : Surroundings)
    (scopes scopes' : Scopes) (st : Stmt Unit) (u : Stmt Link) (after : Scopes) : Prop where
  renamed : (linkStmt around scopes st).tree.rename target new flags = u
  renames : Renames (Equiv.swap target.text new) flags (.stmt (linkStmt around scopes st).tree)
    (.stmt u)
  linked : linkStmt around scopes' u.erase = ⟨u, after, []⟩
  scopes : ScopesAlike target.text new flags (linkStmt around scopes st).scopes after

/-- So for statements one after the other. -/
structure StmtsRelinked (target : Name) (new : String) (flags : List Bool) (around : Surroundings)
    (scopes scopes' : Scopes) (sts : List (Stmt Unit)) (us : List (Stmt Link)) (after : Scopes) :
    Prop where
  renamed : (linkStmts around scopes sts).tree.map (Stmt.rename target new flags) = us
  renames : Renames (Equiv.swap target.text new) flags (.stmts (linkStmts around scopes sts).tree)
    (.stmts us)
  linked : linkStmts around scopes' (us.map Stmt.erase) = ⟨us, after, []⟩
  scopes : ScopesAlike target.text new flags (linkStmts around scopes sts).scopes after

/-- So for a function. -/
structure FunctionRelinked (target : Name) (new : String) (flags : List Bool)
    (around : Surroundings) (scopes scopes' : Scopes) (f : Function Unit) (u : Function Link) :
    Prop where
  renamed : (linkFunction around scopes f).tree.rename target new flags = u
  renames : Renames (Equiv.swap target.text new) flags (.function (linkFunction around scopes f).tree)
    (.function u)
  linked : linkFunction around scopes' u.erase = ⟨u, []⟩

/-- A name that can be replaced where the scopes are related and where the names are those given. -/
structure Renamable (target : Name) (new : String) (flags : List Bool) (scopes scopes' : Scopes)
    (names : List String) : Prop where
  plain : Plain target.text
  plain_new : Plain new
  scopes : ScopesAlike target.text new flags scopes scopes'
  fresh : new ∉ names

/-- A statement can be linked again wherever it stands, if it is not one more declaration of the name
that is replaced. -/
def Stmt.Relinks (target : Name) (new : String) (st : Stmt Unit) : Prop :=
  ∀ {around scopes scopes' names flags}, Regular ⟨around, scopes, .stmt st⟩ names →
    Renamable target new flags scopes scopes' st.names →
    (flags.getD 0 false = true → target.text ∈ st.declares → st.declaredVar? = some target) →
    ∃ u after, StmtRelinked target new flags around scopes scopes' st u after

/-- A function can be linked again in the scopes of its declaration. -/
def Function.Relinks (target : Name) (new : String) (f : Function Unit) : Prop :=
  ∀ {around scopes scopes' names flags}, Regular ⟨around, scopes, .function f⟩ names →
    Renamable target new flags scopes scopes' f.names →
    ∃ u, FunctionRelinked target new flags around scopes scopes' f u

section Statements

open Scopes

variable {target : Name} {new : String} {flags : List Bool} {around : Surroundings}
  {scopes scopes' : Scopes} {names : List (List String)}

theorem Renamable.mono {used more : List String}
    (hr : Renamable target new flags scopes scopes' used) (h : ∀ x ∈ more, x ∈ used) :
    Renamable target new flags scopes scopes' more :=
  ⟨hr.plain, hr.plain_new, hr.scopes, fun hn => hr.fresh (h _ hn)⟩

/-- An expression in a statement. -/
theorem Regular.relink_expr {e : Expr Unit} (h : Regular ⟨around, scopes, .expr e⟩ names)
    (hr : Renamable target new flags scopes scopes' e.names) :
    (linkExpr around scopes e).tree.Proper ∧
      (linkExpr around scopes e).tree.rename (replaceName target.text new) flags =
        (linkExpr around scopes e).tree.rename (Equiv.swap target.text new) flags ∧
      linkExpr around scopes'
          ((linkExpr around scopes e).tree.rename (Equiv.swap target.text new) flags).erase =
        ⟨(linkExpr around scopes e).tree.rename (Equiv.swap target.text new) flags, []⟩ := by
  have hproper : (linkExpr around scopes e).tree.Proper := linkExpr_proper h.proper
  refine ⟨hproper, Expr.rename_replaceName flags hproper ?_,
    linkExpr_rename hr.plain hr.plain_new hr.scopes h.proper hr.fresh h.clean⟩
  rw [linkExpr_names h.proper]
  exact hr.fresh

/-- Statements one after the other. -/
theorem relinked_stmts {sts : List (Stmt Unit)} (ih : ∀ st ∈ sts, st.Relinks target new)
    (h : Regular ⟨around, scopes, .stmts sts⟩ names)
    (hr : Renamable target new flags scopes scopes' (sts.flatMap Stmt.names))
    (honly : flags.getD 0 false = true → ∀ st ∈ sts, target.text ∈ st.declares →
      st.declaredVar? = some target) :
    ∃ us after, StmtsRelinked target new flags around scopes scopes' sts us after := by
  induction sts generalizing scopes scopes' names with
  | nil =>
    have hl : ∀ scopes, linkStmts around scopes [] = ⟨[], scopes, []⟩ := fun scopes => by
      rw [linkStmts]
    refine ⟨[], scopes', ?_, ?_, hl scopes', ?_⟩
    · rw [hl, List.map_nil]
    · rw [hl]
      exact .nil
    · rw [hl]
      exact hr.scopes
  | cons st sts ihs =>
    rw [List.forall_mem_cons] at ih
    have hfirst : Regular ⟨around, scopes, .stmt st⟩ _ := h.part (i := 0) rfl
    have hrest : Regular ⟨around, (linkStmt around scopes st).scopes, .stmts sts⟩ _ :=
      h.part (i := 1) rfl
    obtain ⟨u, between, hu⟩ := ih.1 hfirst (hr.mono fun x hx => by simp [hx])
      fun hflag => honly hflag st List.mem_cons_self
    have hr' : Renamable target new flags (linkStmt around scopes st).scopes between
        (sts.flatMap Stmt.names) :=
      ⟨hr.plain, hr.plain_new, hu.scopes, fun hn => hr.fresh (by simp [hn])⟩
    obtain ⟨us, after, hus⟩ := ihs ih.2 hrest hr'
      fun hflag other hother => honly hflag other (List.mem_cons_of_mem _ hother)
    refine ⟨u :: us, after, ?_, ?_, ?_, ?_⟩
    · rw [linkStmts, List.map_cons, hu.renamed, hus.renamed]
    · rw [linkStmts]
      exact .cons hu.renames hus.renames
    · rw [List.map_cons, linkStmts, hu.linked, hus.linked]
      rfl
    · rw [linkStmts]
      exact hus.scopes

/-- An expression that may be missing. -/
theorem relink_expr? {o : Option (Expr Unit)}
    (h : ∀ e, o = some e → Regular ⟨around, scopes, .expr e⟩ names)
    (hr : Renamable target new flags scopes scopes' (o.toList.flatMap Expr.names)) :
    (∀ e, (linkExpr? around scopes o).tree = some e → e.Proper) ∧
      (linkExpr? around scopes o).tree.map (Expr.rename (replaceName target.text new) flags) =
        (linkExpr? around scopes o).tree.map (Expr.rename (Equiv.swap target.text new) flags) ∧
      linkExpr? around scopes' (((linkExpr? around scopes o).tree.map
          (Expr.rename (Equiv.swap target.text new) flags)).map Expr.erase) =
        ⟨(linkExpr? around scopes o).tree.map (Expr.rename (Equiv.swap target.text new) flags), []⟩ := by
  cases o with
  | none => exact ⟨fun e he => absurd he (by simp [linkExpr?]), rfl, rfl⟩
  | some e =>
    obtain ⟨hproper, hrename, hlink⟩ := (h e rfl).relink_expr (hr.mono fun x hx => by simpa using hx)
    refine ⟨fun e' he' => ?_, ?_, ?_⟩
    · cases he'
      exact hproper
    · exact congrArg some hrename
    · exact congrArg (Linked.map some) hlink

theorem relinks_expression {e : Expr Unit} : (Stmt.expression e).Relinks target new := by
  intro around scopes scopes' names flags h hr _
  have he : Regular ⟨around, scopes, .expr e⟩ _ := h.part (i := 0) rfl
  obtain ⟨hproper, hrename, hlink⟩ := he.relink_expr (hr.mono fun x hx => by rwa [Stmt.names])
  refine ⟨_, scopes', rfl, ?_, ?_, ?_⟩
  · rw [linkStmt, Stmt.rename, hrename]
    exact .expression hproper
  · rw [linkStmt, Stmt.rename, hrename, Stmt.erase, linkStmt, hlink]
  · rw [linkStmt]
    exact hr.scopes

theorem relinks_print {e : Expr Unit} : (Stmt.print e).Relinks target new := by
  intro around scopes scopes' names flags h hr _
  have he : Regular ⟨around, scopes, .expr e⟩ _ := h.part (i := 0) rfl
  obtain ⟨hproper, hrename, hlink⟩ := he.relink_expr (hr.mono fun x hx => by rwa [Stmt.names])
  refine ⟨_, scopes', rfl, ?_, ?_, ?_⟩
  · rw [linkStmt, Stmt.rename, hrename]
    exact .print hproper
  · rw [linkStmt, Stmt.rename, hrename, Stmt.erase, linkStmt, hlink]
  · rw [linkStmt]
    exact hr.scopes

theorem relinks_giveBack {keyword : Pos} {value : Option (Expr Unit)} :
    (Stmt.giveBack keyword value).Relinks target new := by
  intro around scopes scopes' names flags h hr _
  have hc : (linkStmt around scopes (.giveBack keyword value)).issues = [] := h.clean
  rw [linkStmt, List.append_eq_nil_iff] at hc
  have he : ∀ e, value = some e → Regular ⟨around, scopes, .expr e⟩ (declareIn names []) := by
    rintro e rfl
    exact h.part (i := 0) rfl
  obtain ⟨hproper, hrename, hlink⟩ := relink_expr? he (hr.mono fun x hx => by rwa [Stmt.names])
  have hsome : (linkExpr? around scopes value).tree.isSome = value.isSome := by
    cases value <;> rfl
  refine ⟨_, scopes', rfl, ?_, ?_, ?_⟩
  · rw [linkStmt, Stmt.rename, hrename]
    exact .giveBack hproper
  · rw [linkStmt, Stmt.rename, hrename, Stmt.erase, linkStmt, hlink, Option.isSome_map,
      Option.isSome_map, hsome, hc.1]
    rfl
  · rw [linkStmt]
    exact hr.scopes

theorem relinks_var {name : Name} {initializer : Option (Expr Unit)} :
    (Stmt.var name initializer).Relinks target new := by
  intro around scopes scopes' names flags h hr honly
  have hc : (linkStmt around scopes (.var name initializer)).issues = [] := h.clean
  rw [linkStmt, List.append_eq_nil_iff] at hc
  have hfresh := hr.fresh
  rw [Stmt.names, List.mem_cons, not_or] at hfresh
  have hname : name.text ≠ new := Ne.symm hfresh.1
  have he : ∀ e, initializer = some e →
      Regular ⟨around, (scopes.declare name).1, .expr e⟩ (declareIn names [name.text]) := by
    rintro e rfl
    exact h.part (i := 0) rfl
  have hr' : Renamable target new flags (scopes.declare name).1
      (scopes'.declare (name.renameIf (Equiv.swap target.text new) (flags.getD 0 false))).1
      (initializer.toList.flatMap Expr.names) :=
    ⟨hr.plain, hr.plain_new, hr.scopes.declare hname, hfresh.2⟩
  obtain ⟨hproper, hrename, hlink⟩ := relink_expr? he hr'
  have hreplace : (if flags.getD 0 false then Name.replace target new name else name) =
      name.renameIf (Equiv.swap target.text new) (flags.getD 0 false) :=
    Name.replace_eq_renameIf hname fun hflag htext =>
      Option.some.inj (honly hflag (List.mem_singleton.mpr htext.symm))
  refine ⟨_, (scopes'.declare (name.renameIf (Equiv.swap target.text new) (flags.getD 0 false))).1.define
    (name.renameIf (Equiv.swap target.text new) (flags.getD 0 false)), rfl, ?_, ?_, ?_⟩
  · rw [linkStmt, Stmt.rename, hrename, hreplace]
    exact .var hproper
  · rw [linkStmt, Stmt.rename, hrename, hreplace, Stmt.erase]
    simp only [linkStmt, hlink, hr.scopes.declare_issues hc.1, List.append_nil]
  · rw [linkStmt]
    exact (hr.scopes.declare hname).define hname

theorem relinks_block {body : List (Stmt Unit)} (ih : ∀ st ∈ body, st.Relinks target new) :
    (Stmt.block body).Relinks target new := by
  intro around scopes scopes' names flags h hr _
  have hbody : Regular ⟨around, .empty :: scopes, .stmts body⟩ ([] :: names) := h.block rfl
  have hr' : Renamable target new
      (decide (target ∈ body.filterMap Stmt.declaredVar?) :: flags) (.empty :: scopes)
      (.empty :: scopes') (body.flatMap Stmt.names) :=
    ⟨hr.plain, hr.plain_new, .cons (fun _ => rfl) rfl hr.scopes, fun hn => hr.fresh (by
      rwa [Stmt.names])⟩
  obtain ⟨us, after, hus⟩ := relinked_stmts ih hbody hr' fun hflag =>
    hbody.only_declaration (Or.inr (of_decide_eq_true hflag))
  refine ⟨.block us, scopes', ?_, ?_, ?_, ?_⟩
  · rw [linkStmt, Stmt.rename, declaredVar?_linkStmts, hus.renamed]
  · rw [linkStmt]
    exact .block hus.renames
  · rw [Stmt.erase, linkStmt, hus.linked]
  · rw [linkStmt]
    exact hr.scopes

theorem relinks_ifThen {condition : Expr Unit} {thenPart : Stmt Unit}
    (ih : thenPart.Relinks target new) (hd : thenPart.declares = []) :
    (Stmt.ifThen condition thenPart).Relinks target new := by
  intro around scopes scopes' names flags h hr _
  have he : Regular ⟨around, scopes, .expr condition⟩ _ := h.part (i := 0) rfl
  have ht : Regular ⟨around, scopes, .stmt thenPart⟩ _ := h.part (i := 1) rfl
  obtain ⟨hproper, hrename, hlink⟩ := he.relink_expr (hr.mono fun x hx => by
    rw [Stmt.names]
    exact List.mem_append_left _ hx)
  obtain ⟨u, after, hu⟩ := ih ht (hr.mono fun x hx => by
    rw [Stmt.names]
    exact List.mem_append_right _ hx) fun _ hmem => by
      rw [hd] at hmem
      exact absurd hmem List.not_mem_nil
  refine ⟨.ifThen ((linkExpr around scopes condition).tree.rename (Equiv.swap target.text new) flags)
    u, after, ?_, ?_, ?_, ?_⟩
  · rw [linkStmt, Stmt.rename, hrename, hu.renamed]
  · rw [linkStmt]
    exact .ifThen hproper hu.renames
  · rw [Stmt.erase, linkStmt, hlink, hu.linked]
    rfl
  · rw [linkStmt]
    exact hu.scopes

theorem relinks_ifElse {condition : Expr Unit} {thenPart elsePart : Stmt Unit}
    (hp : thenPart.Proper) (ih : thenPart.Relinks target new) (hd : thenPart.declares = [])
    (ih' : elsePart.Relinks target new) (hd' : elsePart.declares = []) :
    (Stmt.ifElse condition thenPart elsePart).Relinks target new := by
  intro around scopes scopes' names flags h hr _
  have he : Regular ⟨around, scopes, .expr condition⟩ _ := h.part (i := 0) rfl
  have ht : Regular ⟨around, scopes, .stmt thenPart⟩ _ := h.part (i := 1) rfl
  have hel : Regular ⟨around, scopes, .stmt elsePart⟩ _ := h.part (i := 2) rfl
  have hafter : (linkStmt around scopes thenPart).scopes = scopes :=
    scopes_linkStmt_guarded hp hd scopes
  have hfresh := hr.fresh
  rw [Stmt.names, List.mem_append, List.mem_append, not_or, not_or] at hfresh
  obtain ⟨⟨hfresh₀, hfresh₁⟩, hfresh₂⟩ := hfresh
  have hr₀ : Renamable target new flags scopes scopes' condition.names :=
    ⟨hr.plain, hr.plain_new, hr.scopes, hfresh₀⟩
  have hr₁ : Renamable target new flags scopes scopes' thenPart.names :=
    ⟨hr.plain, hr.plain_new, hr.scopes, hfresh₁⟩
  obtain ⟨hproper, hrename, hlink⟩ := he.relink_expr hr₀
  obtain ⟨u, between, hu⟩ := ih ht hr₁ fun _ hmem => by
    rw [hd] at hmem
    exact absurd hmem List.not_mem_nil
  have hbetween := hu.scopes
  rw [hafter] at hbetween
  have hr₂ : Renamable target new flags scopes between elsePart.names :=
    ⟨hr.plain, hr.plain_new, hbetween, hfresh₂⟩
  obtain ⟨w, after, hw⟩ := ih' hel hr₂ fun _ hmem => by
    rw [hd'] at hmem
    exact absurd hmem List.not_mem_nil
  refine ⟨.ifElse ((linkExpr around scopes condition).tree.rename (Equiv.swap target.text new) flags)
    u w, after, ?_, ?_, ?_, ?_⟩
  · rw [linkStmt, Stmt.rename, hrename, hu.renamed, hafter, hw.renamed]
  · rw [linkStmt, hafter]
    exact .ifElse hproper hu.renames hw.renames
  · rw [Stmt.erase, linkStmt, hlink, hu.linked, hw.linked]
    rfl
  · rw [linkStmt, hafter]
    exact hw.scopes

theorem relinks_whileDo {condition : Expr Unit} {body : Stmt Unit}
    (ih : body.Relinks target new) (hd : body.declares = []) :
    (Stmt.whileDo condition body).Relinks target new := by
  intro around scopes scopes' names flags h hr _
  have hloop : Regular ⟨around, scopes, .loop condition body⟩ _ := h.part (i := 0) rfl
  have he : Regular ⟨around, scopes, .expr condition⟩ _ := hloop.part (i := 0) rfl
  have hb : Regular ⟨around, scopes, .stmt body⟩ _ := hloop.part (i := 1) rfl
  obtain ⟨hproper, hrename, hlink⟩ := he.relink_expr (hr.mono fun x hx => by
    rw [Stmt.names]
    exact List.mem_append_left _ hx)
  obtain ⟨u, after, hu⟩ := ih hb (hr.mono fun x hx => by
    rw [Stmt.names]
    exact List.mem_append_right _ hx) fun _ hmem => by
      rw [hd] at hmem
      exact absurd hmem List.not_mem_nil
  refine ⟨.whileDo ((linkExpr around scopes condition).tree.rename (Equiv.swap target.text new) flags)
    u, after, ?_, ?_, ?_, ?_⟩
  · rw [linkStmt, Stmt.rename, hrename, hu.renamed]
  · rw [linkStmt]
    exact .whileDo hproper hu.renames
  · rw [Stmt.erase, linkStmt, hlink, hu.linked]
    rfl
  · rw [linkStmt]
    exact hu.scopes

/-- Functions keep their names. -/
theorem FunctionRelinked.name_eq {f : Function Unit} {u : Function Link}
    (h : FunctionRelinked target new flags around scopes scopes' f u) : u.erase.name = f.name := by
  have htree : (linkFunction around scopes f).tree.name = f.name := by
    cases f
    rw [linkFunction]
    rfl
  rw [u.erase_name, h.renames.function_name, htree]

theorem relinks_function {f : Function Unit} (ih : f.Relinks target new) :
    (Stmt.function f).Relinks target new := by
  intro around scopes scopes' names flags h hr honly
  have hf : Regular ⟨{ around with function := .function }, (scopes.introduce f.name).1,
      .function f⟩ (declareIn names [f.name.text]) := by
    rw [introduce_fst]
    exact h.function rfl
  have hc : (linkStmt around scopes (.function f)).issues = [] := h.clean
  rw [linkStmt, List.append_eq_nil_iff] at hc
  have hfresh := hr.fresh
  rw [Stmt.names] at hfresh
  have hname : f.name.text ≠ new := by
    rintro rfl
    obtain ⟨name, params, body⟩ := f
    exact hfresh (by simp [Function.names, Function.name])
  have hstays : changeIf (Equiv.swap target.text new) (flags.getD 0 false) f.name.text = f.name.text :=
    changeIf_swap_of_ne (fun hflag heq => absurd (honly hflag (List.mem_singleton.mpr heq.symm))
      (by simp [Stmt.declaredVar?])) hname
  have hname' : f.name.renameIf (Equiv.swap target.text new) (flags.getD 0 false) = f.name :=
    Name.renameIf_of_text hstays
  have hscopes := hr.scopes.introduce hname
  rw [hname'] at hscopes
  have hissues : (scopes'.introduce f.name).2 = [] := by
    have hdeclare := hr.scopes.declare_issues hc.1
    rwa [hname'] at hdeclare
  obtain ⟨u, hu⟩ := ih hf ⟨hr.plain, hr.plain_new, hscopes, hfresh⟩
  refine ⟨.function u, (scopes'.introduce f.name).1, ?_, ?_, ?_, ?_⟩
  · simp only [linkStmt, Stmt.rename, hu.renamed]
  · rw [linkStmt]
    refine .function ?_ hu.renames
    obtain ⟨name, params, body⟩ := f
    simp only [linkFunction]
    exact hstays
  · rw [Stmt.erase]
    simp only [linkStmt, hu.name_eq, hu.linked, hissues, List.append_nil]
  · rw [linkStmt]
    exact hscopes

/-- A function with the statements of its body. -/
theorem relinks_mk {name : Name} {params : List Name} {body : List (Stmt Unit)}
    (ih : ∀ st ∈ body, st.Relinks target new) :
    (Function.mk name params body).Relinks target new := by
  intro around scopes scopes' names flags h hr
  have hbody : Regular ⟨around, (introduceAll (.empty :: scopes) params).1, .stmts body⟩
      (params.map Name.text :: names) := h.call
  have hc : (linkFunction around scopes (.mk name params body)).issues = [] := h.clean
  rw [linkFunction, List.append_eq_nil_iff] at hc
  have hfresh := hr.fresh
  rw [Function.names, List.cons_append, List.mem_cons, List.mem_append, not_or, not_or] at hfresh
  have hparams : ∀ p ∈ params, p.text ≠ new := by
    rintro p hp rfl
    exact hfresh.2.1 (List.mem_map_of_mem hp)
  generalize hflag : decide (target ∈ params ++ body.filterMap Stmt.declaredVar?) = flag
  have hrenamed : params.map (Name.replace target new) =
      params.map (Name.renameIf (Equiv.swap target.text new) flag) := by
    have hmatched : Matches (.empty :: scopes) ([] :: names) :=
      .cons (fun n => by simp [Bindings.contains]) h.matched
    refine List.map_congr_left fun p hp => ?_
    rw [← Name.replace_eq_renameIf (hparams p hp) fun hflag' htext => ?_]
    · split
      · rfl
      · rename_i hflag'
        have hne : p ≠ target := by
          rintro rfl
          exact hflag' (by rw [← hflag]; exact decide_eq_true (List.mem_append_left _ hp))
        rw [Name.replace, if_neg hne]
    · have htarget : target ∈ params ++ body.filterMap Stmt.declaredVar? :=
        of_decide_eq_true (hflag.trans hflag')
      rcases List.mem_append.mp htarget with ht | ht
      · exact List.inj_on_of_nodup_map (nodup_introduceAll hmatched hc.1).1 hp ht htext
      · have hmem : p.text ∈ params.map Name.text := List.mem_map_of_mem hp
        rw [htext] at hmem
        exact absurd hmem (hbody.nodup_declares.2 _ (text_mem_declares ht))
  have hempty : ScopesAlike target.text new (flag :: flags) (.empty :: scopes) (.empty :: scopes') :=
    .cons (fun _ => rfl) rfl hr.scopes
  obtain ⟨hscopes, hissues⟩ := hempty.introduceAll hparams hc.1
  rw [List.getD_cons_zero] at hscopes hissues
  obtain ⟨us, after, hus⟩ := relinked_stmts ih hbody
    ⟨hr.plain, hr.plain_new, hscopes, hfresh.2.2⟩ fun hflag' => by
      have htarget : target ∈ params ++ body.filterMap Stmt.declaredVar? :=
        of_decide_eq_true (hflag.trans hflag')
      refine hbody.only_declaration ?_
      rw [List.mem_append] at htarget
      exact htarget.imp_left (List.mem_map_of_mem)
  refine ⟨.mk name (params.map (Name.renameIf (Equiv.swap target.text new) flag)) us, ?_, ?_, ?_⟩
  · rw [linkFunction]
    simp only [Function.rename, declaredVar?_linkStmts, hflag, hrenamed, hus.renamed]
  · rw [linkFunction]
    exact .mk hus.renames
  · rw [Function.erase]
    simp only [linkFunction, hissues, hus.linked, List.append_nil]

/-- The scopes around the methods of a class. -/
theorem Renamable.method {used : List String} (hr : Renamable target new flags scopes scopes' used)
    (hasSuperclass : Bool) :
    Renamable target new (false :: if hasSuperclass then false :: flags else flags)
      (methodScopes scopes hasSuperclass) (methodScopes scopes' hasSuperclass) used := by
  have hsingle : ∀ k : Keyword, Bindings.get? (Scope.single k.word) new = none := fun k => by
    rw [Scope.single, Bindings.get?_set_of_ne _ _ (hr.plain_new.ne_word k)]
    rfl
  refine ⟨hr.plain, hr.plain_new, .cons (fun _ => rfl) (hsingle .this) ?_, hr.fresh⟩
  cases hasSuperclass with
  | false => exact hr.scopes
  | true => exact .cons (fun _ => rfl) (hsingle .super) hr.scopes

/-- A method of a class, linked. -/
def linkMethod (around : Surroundings) (scopes : Scopes) (hasSuperclass : Bool)
    (f : Function Unit) : Linked (Function Link) :=
  linkFunction { methodSurroundings around hasSuperclass with function := methodKind f }
    (methodScopes scopes hasSuperclass) f

/-- The flags of the scopes around the methods of a class. -/
def methodFlags (flags : List Bool) (hasSuperclass : Bool) : List Bool :=
  false :: if hasSuperclass then false :: flags else flags

/-- A method of a class, linked and renamed. -/
def renamedMethod (target : Name) (new : String) (flags : List Bool) (around : Surroundings)
    (scopes : Scopes) (hasSuperclass : Bool) (f : Function Unit) : Function Link :=
  (linkMethod around scopes hasSuperclass f).tree.rename target new (methodFlags flags hasSuperclass)

theorem linkStmt_classDecl (around : Surroundings) (scopes : Scopes) (name : Name)
    (superclass : Option (Reference Unit)) (methods : List (Function Unit)) :
    linkStmt around scopes (.classDecl name superclass methods) =
      { tree := .classDecl name (linkSuperclass (scopes.introduce name).1 name superclass).tree
          (methods.map fun f =>
            (linkMethod around (scopes.introduce name).1 superclass.isSome f).tree)
        scopes := (scopes.introduce name).1
        issues := (scopes.introduce name).2 ++
            (linkSuperclass (scopes.introduce name).1 name superclass).issues ++
          methods.flatMap fun f =>
            (linkMethod around (scopes.introduce name).1 superclass.isSome f).issues } := by
  simp only [linkStmt, List.map_map, List.flatMap_map]
  rfl

/-- The methods of a class are linked as functions inside the scope of `this`. -/
theorem relinked_methods {name : Name} {superclass : Option (Reference Unit)}
    {methods : List (Function Unit)} (ih : ∀ f ∈ methods, f.Relinks target new)
    (h : Regular ⟨around, scopes, .stmt (.classDecl name superclass methods)⟩ names)
    (hr : Renamable target new flags (scopes.introduce name).1 scopes'
      (methods.flatMap Function.names)) :
    ∀ f ∈ methods,
      Renames (Equiv.swap target.text new) (methodFlags flags superclass.isSome)
        (.function (linkMethod around (scopes.introduce name).1 superclass.isSome f).tree)
        (.function (renamedMethod target new flags around (scopes.introduce name).1
          superclass.isSome f)) ∧
      linkMethod around scopes' superclass.isSome (renamedMethod target new flags around
          (scopes.introduce name).1 superclass.isSome f).erase =
        ⟨renamedMethod target new flags around (scopes.introduce name).1 superclass.isSome f, []⟩ := by
  intro f hf
  have hmethod : Regular ⟨{ methodSurroundings around superclass.isSome with
      function := methodKind f }, methodScopes (scopes.introduce name).1 superclass.isSome,
      .function f⟩ ([Keyword.this.word] :: if superclass.isSome then
        [Keyword.super.word] :: declareIn names [name.text] else declareIn names [name.text]) := by
    rw [introduce_fst]
    exact (h.method rfl hf).bind
  obtain ⟨u, hu⟩ := ih f hf hmethod (Renamable.mono (hr.method superclass.isSome) fun x hx =>
    List.mem_flatMap.mpr ⟨f, hf, hx⟩)
  have hrenamed : renamedMethod target new flags around (scopes.introduce name).1
      superclass.isSome f = u := hu.renamed
  rw [hrenamed]
  refine ⟨hu.renames, ?_⟩
  unfold linkMethod methodKind
  rw [hu.name_eq]
  exact hu.linked

theorem relinks_classDecl {name : Name} {superclass : Option (Reference Unit)}
    {methods : List (Function Unit)} (ih : ∀ f ∈ methods, f.Relinks target new) :
    (Stmt.classDecl name superclass methods).Relinks target new := by
  intro around scopes scopes' names flags h hr honly
  have hc : (linkStmt around scopes (.classDecl name superclass methods)).issues = [] := h.clean
  rw [linkStmt, List.append_eq_nil_iff, List.append_eq_nil_iff] at hc
  have hfresh := hr.fresh
  rw [Stmt.names, List.cons_append, List.mem_cons, List.mem_append, not_or, not_or] at hfresh
  have hname : name.text ≠ new := Ne.symm hfresh.1
  have hstays : changeIf (Equiv.swap target.text new) (flags.getD 0 false) name.text = name.text :=
    changeIf_swap_of_ne (fun hflag heq => absurd (honly hflag (List.mem_singleton.mpr heq.symm))
      (by simp [Stmt.declaredVar?])) hname
  have hname' : name.renameIf (Equiv.swap target.text new) (flags.getD 0 false) = name :=
    Name.renameIf_of_text hstays
  have hscopes := hr.scopes.introduce hname
  rw [hname'] at hscopes
  have hissues : (scopes'.introduce name).2 = [] := by
    have hdeclare := hr.scopes.declare_issues hc.1.1
    rwa [hname'] at hdeclare
  have hsuperclass : ∀ r, superclass = some r → r.name.text ≠ new := by
    rintro r rfl rfl
    exact hfresh.2.1 (by simp)
  have hlink := linkSuperclass_rename hscopes hname hsuperclass hc.1.2
  have hsome : (linkSuperclass (scopes.introduce name).1 name superclass).tree.isSome =
      superclass.isSome := by
    cases superclass <;> rfl
  have hrenamed : (linkSuperclass (scopes.introduce name).1 name superclass).tree.map
        (Reference.rename (replaceName target.text new) flags) =
      (linkSuperclass (scopes.introduce name).1 name superclass).tree.map
        (Reference.rename (Equiv.swap target.text new) flags) := by
    cases superclass with
    | none => rfl
    | some r => exact congrArg some (Reference.rename_replaceName flags (hsuperclass r rfl))
  have hmethods := relinked_methods ih h ⟨hr.plain, hr.plain_new, hscopes, hfresh.2.2⟩
  refine ⟨.classDecl name ((linkSuperclass (scopes.introduce name).1 name superclass).tree.map
      (Reference.rename (Equiv.swap target.text new) flags))
    (methods.map (renamedMethod target new flags around (scopes.introduce name).1
      superclass.isSome)), (scopes'.introduce name).1, ?_, ?_, ?_, ?_⟩
  · rw [linkStmt_classDecl, Stmt.rename, hsome, hrenamed, List.map_map]
    rfl
  · rw [linkStmt_classDecl]
    refine .classDecl hstays (by rw [List.length_map, List.length_map]) fun i f f' hf hf' => ?_
    rw [hsome]
    rw [List.getElem?_map, Option.map_eq_some_iff] at hf hf'
    obtain ⟨raw, hraw, rfl⟩ := hf
    obtain ⟨raw', hraw', rfl⟩ := hf'
    rw [hraw] at hraw'
    cases hraw'
    exact .method (hmethods raw (List.mem_of_getElem? hraw)).1
  · rw [Stmt.erase, linkStmt_classDecl, hlink, Option.isSome_map, Option.isSome_map, hsome, hissues,
      List.map_map, List.map_map, List.flatMap_map]
    rw [LinkedStmt.mk.injEq, Stmt.classDecl.injEq, List.nil_append, List.nil_append,
      List.flatMap_eq_nil_iff]
    refine ⟨⟨rfl, rfl, List.map_congr_left fun f hf => ?_⟩, rfl, fun g hg => ?_⟩
    · exact congrArg Linked.tree (hmethods f hf).2
    · obtain ⟨f, hf, rfl⟩ := List.mem_map.mp hg
      exact congrArg Linked.issues (hmethods f hf).2
  · rw [linkStmt_classDecl]
    exact hscopes

end Statements

/-! ## Programs -/

mutual

theorem Stmt.Proper.relinks (target : Name) (new : String) {st : Stmt Unit} (h : st.Proper) :
    st.Relinks target new := by
  cases h with
  | expression _ => exact relinks_expression
  | print _ => exact relinks_print
  | var _ _ => exact relinks_var
  | block hb => exact relinks_block fun st hst => (hb st hst).relinks target new
  | ifThen _ ht hd => exact relinks_ifThen (ht.relinks target new) hd
  | ifElse _ ht hd he hd' =>
    exact relinks_ifElse ht (ht.relinks target new) hd (he.relinks target new) hd'
  | whileDo _ hb hd => exact relinks_whileDo (hb.relinks target new) hd
  | function hf => exact relinks_function (hf.relinks target new)
  | giveBack _ _ => exact relinks_giveBack
  | classDecl _ _ hm => exact relinks_classDecl fun f hf => (hm f hf).relinks target new

theorem Function.Proper.relinks (target : Name) (new : String) {f : Function Unit}
    (h : f.Proper) : f.Relinks target new := by
  cases h with
  | mk _ _ hb => exact relinks_mk fun st hst => (hb st hst).relinks target new

end

/-- **Linking a renamed program gives the renamed program again, without issues.** -/
theorem relinked_program {stmts : List (Stmt Unit)} (hp : ∀ st ∈ stmts, st.Proper)
    (hc : (linkProgram stmts).issues = []) {target : Name} {new : String}
    (ht : Plain target.text) (hn : Plain new) (hfresh : new ∉ stmts.flatMap Stmt.names) :
    Renames (Equiv.swap target.text new) [] (.stmts (linkProgram stmts).tree)
        (.stmts (renameLocal target new (linkProgram stmts).tree)) ∧
      linkProgram ((renameLocal target new (linkProgram stmts).tree).map Stmt.erase) =
        ⟨renameLocal target new (linkProgram stmts).tree, []⟩ := by
  have hregular : Regular ⟨.topLevel, [], .stmts stmts⟩ [] :=
    ⟨hc, hp, .nil, Scopes.settled_nil, fun _ _ h => absurd h (by simp), trivial⟩
  obtain ⟨us, after, hus⟩ := relinked_stmts (fun st hst => (hp st hst).relinks target new) hregular
    ⟨ht, hn, .nil, hfresh⟩ fun hflag => absurd hflag Bool.false_ne_true
  have hrenamed : renameLocal target new (linkProgram stmts).tree = us := hus.renamed
  rw [hrenamed]
  refine ⟨hus.renames, ?_⟩
  unfold linkProgram
  rw [hus.linked]

end LoxKit
