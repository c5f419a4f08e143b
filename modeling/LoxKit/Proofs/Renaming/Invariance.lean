import LoxKit.Proofs.Renaming.Locals
import LoxKit.Proofs.Renaming.Relinking
import LoxKit.Proofs.Renaming.Simulation
import LoxKit.Proofs.Session.History
import LoxKit.Syntax.Outline

/-!
# Names of local variables do not matter

A program behaves as before when one of its local variables or parameters gets another name, and the
references that are linked to it get that name too: it is linked in the same way, prints the same and
ends in the same way.

Headlines:
* `Renames.sites`: renaming keeps the nodes and what is known about them.
* `CleanText.compiled`: a clean text is compiled to its linked program.
* **`CleanText.renaming_invariant`**: the program and the renamed one.
-/

namespace LoxKit

/-! ## Outlines -/

/-- The kind of a node, and what is known about it if it is a reference. -/
def Entry.site (entry : Entry Link) : NodeKind × Option Link :=
  (entry.kind, entry.link)

/-- The outline of a node. -/
def Node.outline : Node Link → List (Entry Link)
  | .expr e => Entry.ofExpr e
  | .exprs es => es.flatMap Entry.ofExpr
  | .stmt st => Entry.ofStmt st
  | .stmts sts => Entry.ofStmts sts
  | .loop condition body => Entry.ofExpr condition ++ Entry.ofStmt body
  | .function f | .method f => Entry.ofFunction f

section Outlines

variable {ρ : String → String} {flags : List Bool}

theorem Expr.Proper.sites {e : Expr Link} (h : e.Proper) :
    (Entry.ofExpr (e.rename ρ flags)).map Entry.site = (Entry.ofExpr e).map Entry.site := by
  induction h with
  | literal | this | super => rw [Expr.rename]
  | grouping _ ih | unary _ _ _ ih | get _ _ ih =>
    simp only [Expr.rename, Entry.ofExpr, List.map_cons, ih]
    rfl
  | binary _ _ _ _ ihl ihr | logical _ _ _ _ ihl ihr | set _ _ _ ihl ihr =>
    simp only [Expr.rename, Entry.ofExpr, List.map_cons, List.map_append, ihl, ihr]
    rfl
  | var _ =>
    simp only [Expr.rename, Entry.ofExpr]
    rfl
  | assign _ _ ih =>
    simp only [Expr.rename, Entry.ofExpr, List.map_cons, ih]
    rfl
  | @call callee args paren _ _ ihc iha =>
    simp only [Expr.rename, Entry.ofExpr, List.map_cons, List.map_append, ihc, List.flatMap_map,
      List.map_flatMap]
    rw [List.flatMap_congr iha]
    rfl

/-- Renaming keeps the nodes and what is known about them. -/
theorem Renames.sites {n n' : Node Link} (h : Renames ρ flags n n') :
    n'.outline.map Entry.site = n.outline.map Entry.site := by
  induction h with
  | expression he | print he =>
    simp only [Node.outline, Entry.ofStmt, List.map_cons, he.sites]
  | @var _ name initializer he =>
    cases initializer with
    | none => simp only [Node.outline, Entry.ofStmt, Option.map_none]
    | some e =>
      simp only [Node.outline, Entry.ofStmt, Option.map_some, Entry.ofExpr?, List.map_cons,
        (he e rfl).sites]
  | @giveBack _ keyword value he =>
    cases value with
    | none => simp only [Node.outline, Entry.ofStmt, Option.map_none]
    | some e =>
      simp only [Node.outline, Entry.ofStmt, Option.map_some, Entry.ofExpr?, List.map_cons,
        (he e rfl).sites]
  | block _ ih =>
    simp only [Node.outline, Entry.ofStmts] at ih
    simp only [Node.outline, Entry.ofStmt, List.map_cons, ih]
  | ifThen he _ ih | whileDo he _ ih =>
    simp only [Node.outline] at ih
    simp only [Node.outline, Entry.ofStmt, List.map_cons, List.map_append, he.sites, ih]
  | ifElse he _ _ ih ih' =>
    simp only [Node.outline] at ih ih'
    simp only [Node.outline, Entry.ofStmt, List.map_cons, List.map_append, he.sites, ih, ih']
  | function _ _ ih =>
    simp only [Node.outline] at ih
    simp only [Node.outline, Entry.ofStmt, ih]
  | @classDecl _ name superclass methods methods' _ hlen _ ih =>
    have hlist : methods'.map (fun f => (Entry.ofFunction f).map Entry.site) =
        methods.map fun f => (Entry.ofFunction f).map Entry.site := by
      refine List.ext_getElem (by rw [List.length_map, List.length_map, hlen]) fun i hi hi' => ?_
      rw [List.length_map] at hi hi'
      rw [List.getElem_map, List.getElem_map]
      exact ih i _ _ (List.getElem?_eq_getElem hi') (List.getElem?_eq_getElem hi)
    have hmethods : (methods'.flatMap Entry.ofFunction).map Entry.site =
        (methods.flatMap Entry.ofFunction).map Entry.site := by
      rw [List.map_flatMap, List.map_flatMap, List.flatMap_def, List.flatMap_def, hlist]
    simp only [Node.outline, Entry.ofStmt, List.map_cons, List.map_append, hmethods]
    cases superclass <;> rfl
  | nil => rfl
  | cons _ _ ih ihs =>
    simp only [Node.outline, Entry.ofStmts] at ih ihs
    simp only [Node.outline, Entry.ofStmts, List.flatMap_cons, List.map_append, ih, ihs]
  | mk _ ih =>
    simp only [Node.outline, Entry.ofStmts] at ih
    simp only [Node.outline, Entry.ofFunction, List.map_cons, ih]
    rfl
  | method _ ih => exact ih

end Outlines

/-! ## Sessions -/

namespace Report

theorem notices_info (r : Report) (line : String) : (r.info line).notices = r.notices := by
  unfold info
  split <;> rfl

theorem failure_info (r : Report) (line : String) : (r.info line).failure = r.failure := by
  unfold info
  split <;> rfl

end Report

/-- A clean text is compiled to its linked program, and nothing is reported. -/
theorem CleanText.compiled {text : String} {stmts : List (Stmt Unit)} (h : CleanText text stmts)
    (session : Session) :
    ∃ report, session.compiled text = (report, .ready (linkProgram stmts).tree) ∧
      report.failure = none := by
  unfold Session.compiled Report.compile Report.readText Report.link
  simp only [h.scanned, h.read, h.linked, Report.noteAll, Report.ok, Report.notices_info]
  refine ⟨_, rfl, ?_⟩
  simp only [Report.failure_info]
  rfl

/-- What a run shows: how it ended, what it printed, and why it failed. -/
def Session.shown (run : Session × Status) : Status × String × Option Failure :=
  (run.2, run.1.store.output, run.1.report.failure)

theorem alike_initial (ρ : String → String) : Alike ρ [false] .initial .initial := by
  refine ⟨rfl, rfl, fun id flag hid name => ?_, rfl, fun id name => .none, rfl, rfl, rfl⟩
  have hflag : flag = false := List.mem_singleton.mp (List.mem_of_getElem? hid)
  rw [hflag, changeIf_false]
  unfold Store.initial
  rw [Frames.read_push]
  split
  · rw [Bindings.get?_set]
    split
    · exact .some (.native .clock)
    · exact .none
  · rw [Frames.read_of_le _ (Nat.zero_le _)]
    exact .none

/-- Programs that run side by side show the same. -/
theorem Same.shown_eq {ρ : String → String} {g : List Bool} {Q : List Bool → Unit → Unit → Prop}
    {h : Host} {fuel : Nat} {program program' : List (Stmt Link)} {session session' : Session}
    (hs : Same ρ g Q (runProgram h fuel program session.store)
      (runProgram h fuel program' session'.store))
    (ho : session'.store.output = session.store.output)
    (hf : session'.report.failure = session.report.failure) :
    Session.shown (session'.execute h fuel program') = Session.shown (session.execute h fuel program) := by
  unfold Session.execute
  generalize runProgram h fuel program session.store = o at hs
  generalize runProgram h fuel program' session'.store = o' at hs
  cases hs with
  | done hg hs hq => simp only [Session.shown, hs.output, hf]
  | failed error line ho => simp only [Session.shown, ho, Report.fail]
  | broken breakage => simp only [Session.shown, ho, hf]
  | unfinished => simp only [Session.shown, ho, hf]

/-! ## Programs -/

theorem plain_declaredVars {sts : List (Stmt Unit)} (h : ∀ st ∈ sts, st.Proper) :
    ∀ n ∈ sts.filterMap Stmt.declaredVar?, Plain n.text := by
  intro n hn
  obtain ⟨st, hst, hvar⟩ := List.mem_filterMap.mp hn
  have hp := h st hst
  cases hp with
  | var hplain _ =>
    cases hvar
    exact hplain
  | _ => exact absurd hvar (by simp [Stmt.declaredVar?])

mutual

theorem Stmt.Proper.plain_locals {st : Stmt Unit} (h : st.Proper) :
    ∀ n ∈ st.locals, Plain n.text := by
  cases h with
  | expression | print | var | giveBack => exact fun n hn => absurd hn (by simp [Stmt.locals])
  | block hb =>
    rw [Stmt.locals]
    exact List.forall_mem_append.mpr ⟨plain_declaredVars hb, fun n hn => by
      obtain ⟨st, hst, hn⟩ := List.mem_flatMap.mp hn
      exact (hb st hst).plain_locals n hn⟩
  | ifThen _ ht _ =>
    rw [Stmt.locals]
    exact ht.plain_locals
  | ifElse _ ht _ he _ =>
    rw [Stmt.locals]
    exact List.forall_mem_append.mpr ⟨ht.plain_locals, he.plain_locals⟩
  | whileDo _ hb _ =>
    rw [Stmt.locals]
    exact hb.plain_locals
  | function hf =>
    rw [Stmt.locals]
    exact hf.plain_locals
  | classDecl _ _ hm =>
    rw [Stmt.locals]
    intro n hn
    obtain ⟨f, hf, hn⟩ := List.mem_flatMap.mp hn
    exact (hm f hf).plain_locals n hn

theorem Function.Proper.plain_locals {f : Function Unit} (h : f.Proper) :
    ∀ n ∈ f.locals, Plain n.text := by
  cases h with
  | mk _ hp hb =>
    rw [Function.locals]
    refine List.forall_mem_append.mpr
      ⟨List.forall_mem_append.mpr ⟨hp, plain_declaredVars hb⟩, fun n hn => ?_⟩
    obtain ⟨st, hst, hn⟩ := List.mem_flatMap.mp hn
    exact (hb st hst).plain_locals n hn

end

/-- **Names of local variables do not matter.** A name with its place is that of one declaration. When
this declaration and the references to it get a new name, the program is linked as before and runs
as before. -/
theorem CleanText.renaming_invariant {text : String} {stmts : List (Stmt Unit)}
    (h : CleanText text stmts) {target : Name} (ht : target ∈ stmts.flatMap Stmt.locals)
    {new : String} (hn : Plain new) (hfresh : new ∉ stmts.flatMap Stmt.names) (host : Host)
    (verbose : Bool) (limit : Option Int) :
    (stmts.flatMap Stmt.locals).Nodup ∧
      linkProgram ((renameLocal target new (linkProgram stmts).tree).map Stmt.erase) =
        ⟨renameLocal target new (linkProgram stmts).tree, []⟩ ∧
      (Entry.ofStmts (renameLocal target new (linkProgram stmts).tree)).map Entry.site =
        (Entry.ofStmts (linkProgram stmts).tree).map Entry.site ∧
      ∀ fuel, Session.shown ((Session.start verbose limit).execute host fuel
          (renameLocal target new (linkProgram stmts).tree)) =
        Session.shown ((Session.start verbose limit).run host fuel text false) := by
  obtain ⟨st, hst, hlocal⟩ := List.mem_flatMap.mp ht
  have hplain : Plain target.text := (h.proper st hst).plain_locals target hlocal
  obtain ⟨hrenames, hlinked⟩ := relinked_program h.proper h.linked hplain hn hfresh
  refine ⟨Grammar.nodup_locals h.read, hlinked, hrenames.sites, fun fuel => ?_⟩
  obtain ⟨report, hcompiled, hfailure⟩ := h.compiled (.start verbose limit)
  have hrun : (Session.start verbose limit).run host fuel text false =
      Session.execute ⟨report, .initial⟩ host fuel (linkProgram stmts).tree := by
    unfold Session.compiled at hcompiled
    simp only [Session.run, hcompiled]
    rfl
  rw [hrun]
  refine Same.shown_eq (runProgram_same (Equiv.swap _ _).injective (swap_keyword hplain hn) host fuel
    hrenames (alike_initial _) rfl) rfl ?_
  rw [hfailure]
  rfl

/-- The statements of `fun f(x) { return x; }`. -/
def identityProgram : List (Stmt Unit) :=
  [.function (.mk ⟨"f", ⟨1, 4⟩⟩ [⟨"x", ⟨1, 6⟩⟩]
    [.giveBack ⟨1, 11⟩ (some (.var ⟨⟨"x", ⟨1, 18⟩⟩, ()⟩))])]

theorem cleanText_identity : CleanText "fun f(x) { return x; }" identityProgram := by
  constructor
  · cbv
  · cbv
  · cbv

theorem renaming_invariant_identity :
    (identityProgram.flatMap Stmt.locals).Nodup ∧
      linkProgram ((renameLocal ⟨"x", ⟨1, 6⟩⟩ "y" (linkProgram identityProgram).tree).map Stmt.erase) =
        ⟨renameLocal ⟨"x", ⟨1, 6⟩⟩ "y" (linkProgram identityProgram).tree, []⟩ ∧
      (Entry.ofStmts (renameLocal ⟨"x", ⟨1, 6⟩⟩ "y" (linkProgram identityProgram).tree)).map
          Entry.site =
        (Entry.ofStmts (linkProgram identityProgram).tree).map Entry.site ∧
      ∀ fuel, Session.shown ((Session.start false none).execute ⟨fun _ => 0, 1000⟩ fuel
          (renameLocal ⟨"x", ⟨1, 6⟩⟩ "y" (linkProgram identityProgram).tree)) =
        Session.shown ((Session.start false none).run ⟨fun _ => 0, 1000⟩ fuel
          "fun f(x) { return x; }" false) :=
  CleanText.renaming_invariant cleanText_identity
    (by simp [identityProgram, Stmt.locals, Function.locals]) (by decide)
    (by simp [identityProgram, Stmt.names, Function.names, Expr.names]) _ _ _

end LoxKit
