import LoxKit.Proofs.Grammar.Material
import LoxKit.Proofs.Scope.Rules

/-!
# Where issues are anchored

The issues of reading are about tokens of the text, and those of linking are anchored at sites of
the trees. The trees are made of the tokens, so the sites are places of tokens too, with the names
and the keywords that are written there.

Headlines:
* `Mention.At`, `Expr.At`, `Stmt.At`: the sites of a tree stand at tokens.
* `Expr.MadeOf.at`, `Stmt.MadeOf.at`: so it is with trees that are made of tokens.
* **`Grammar.parse_at`**: the issues and the sites of a text.
* **`linkProgram_at`**: the issues of linking its statements.
-/

namespace LoxKit

variable {P : Token → Prop}

/-! ## Sites at tokens -/

/-- A mention that stands where a token of its kind stands that is written so. -/
def Mention.At (P : Token → Prop) (m : Mention) : Prop :=
  ∃ t, P t ∧ t.kind = m.kind ∧ t.pos = m.pos ∧ t.lexeme = m.text

/-- An expression all of whose mentions stand at tokens. -/
def Expr.At (P : Token → Prop) (e : Expr Unit) : Prop :=
  ∀ m ∈ e.mentions, m.At P

/-- Sites all of which stand at tokens. -/
def SitesAt (P : Token → Prop) (ss : List Site) : Prop :=
  ∀ s ∈ ss, s.mention.At P

/-- A statement all of whose sites stand at tokens, whatever encloses it. -/
def Stmt.At (P : Token → Prop) (stmt : Stmt Unit) : Prop :=
  ∀ ctx, SitesAt P (stmt.sites ctx)

/-- A function all of whose sites stand at tokens, and its name too. -/
def Function.At (P : Token → Prop) (f : Function Unit) : Prop :=
  (Mention.declaration f.name).At P ∧ ∀ ctx construct, SitesAt P (f.sites ctx construct)

theorem SitesAt.cons {s : Site} {ss : List Site} (h : s.mention.At P) (hs : SitesAt P ss) :
    SitesAt P (s :: ss) :=
  List.forall_mem_cons.mpr ⟨h, hs⟩

theorem SitesAt.append {ss ss' : List Site} (h : SitesAt P ss) (h' : SitesAt P ss') :
    SitesAt P (ss ++ ss') :=
  fun s hs => (List.mem_append.mp hs).elim (h s) (h' s)

theorem sitesAt_nil : SitesAt P [] :=
  fun _ h => absurd h List.not_mem_nil

theorem Expr.At.sites {e : Expr Unit} (h : e.At P) (ctx : Context) (initializing : Option Name) :
    SitesAt P (e.sites ctx initializing) := by
  intro s hs
  obtain ⟨m, hm, rfl⟩ := List.mem_map.mp hs
  exact h m hm

theorem sitesAt_optional {e : Option (Expr Unit)} (h : ∀ e' ∈ e, e'.At P) (ctx : Context)
    (initializing : Option Name) : SitesAt P (Expr.sites? ctx initializing e) := by
  cases e with
  | none => exact sitesAt_nil
  | some e => exact (h e rfl).sites ctx initializing

theorem sitesAt_all {stmts : List (Stmt Unit)} (h : ∀ stmt ∈ stmts, stmt.At P) : ∀ ctx,
    SitesAt P (Stmt.sitesOfAll ctx stmts) := by
  induction stmts with
  | nil =>
    intro ctx
    rw [Stmt.sitesOfAll]
    exact sitesAt_nil
  | cons stmt stmts ih =>
    intro ctx
    rw [List.forall_mem_cons] at h
    rw [Stmt.sitesOfAll]
    exact (h.1 ctx).append (ih h.2 _)

theorem sitesAt_declarations {names : List Name} (h : ∀ n ∈ names, (Mention.declaration n).At P) :
    ∀ ctx, SitesAt P (declarationSites ctx names) := by
  induction names with
  | nil => exact fun _ => sitesAt_nil
  | cons name names ih =>
    intro ctx
    rw [List.forall_mem_cons] at h
    exact .cons h.1 (ih h.2 _)

/-! ## Trees -/

/-- A name stands where a token stands that it is made of. -/
theorem Name.Of.at {n : Name} {m : Mention} (h : n.Of P m.kind) (hpos : m.pos = n.pos)
    (htext : m.text = n.text) : m.At P := by
  obtain ⟨t, ht, hkind, rfl⟩ := h
  exact ⟨t, ht, hkind, hpos.symm, htext.symm⟩

theorem Expr.MadeOf.at {e : Expr Unit} (h : e.MadeOf P) : e.At P := by
  unfold Expr.At
  induction h with
  | literal =>
    rw [Expr.mentions]
    exact fun _ hm => absurd hm List.not_mem_nil
  | alwaysTrue =>
    rw [Grammar.alwaysTrue, Expr.mentions]
    exact fun _ hm => absurd hm List.not_mem_nil
  | grouping _ ih | unary _ _ _ ih | get _ _ ih =>
    rw [Expr.mentions]
    exact ih
  | binary _ _ _ _ ihl ihr | logical _ _ _ _ ihl ihr =>
    rw [Expr.mentions]
    exact List.forall_mem_append.mpr ⟨ihl, ihr⟩
  | @var target h =>
    rw [Expr.mentions]
    exact List.forall_mem_singleton.mpr (h.at (m := .lookup target.name) rfl rfl)
  | @assign target _ h _ ihv =>
    rw [Expr.mentions]
    exact List.forall_mem_append.mpr ⟨ihv,
      List.forall_mem_singleton.mpr (h.at (m := .assignment target.name) rfl rfl)⟩
  | call _ _ _ ihc iha =>
    rw [Expr.mentions]
    exact List.forall_mem_append.mpr ⟨ihc, List.forall_mem_flatMap.mpr iha⟩
  | set _ _ _ iho ihv =>
    rw [Expr.mentions]
    exact List.forall_mem_append.mpr ⟨ihv, iho⟩
  | @this target h =>
    rw [Expr.mentions]
    exact List.forall_mem_singleton.mpr (h.at (m := .this target.name) rfl rfl)
  | @super target _ h _ =>
    rw [Expr.mentions]
    exact List.forall_mem_singleton.mpr (h.at (m := .super target.name) rfl rfl)


mutual

theorem Stmt.MadeOf.at (hw : ∀ t, P t → ∀ k, t.kind = .keyword k → t.lexeme = k.word)
    {stmt : Stmt Unit} (h : stmt.MadeOf P) : stmt.At P := by
  intro ctx
  match h with
  | .expression h | .print h =>
    rw [Stmt.sites]
    exact h.at.sites ctx none
  | .var hn hi =>
    rw [Stmt.sites]
    exact .cons (hn.at (m := .declaration _) rfl rfl)
      (sitesAt_optional (fun e he => (hi e he).at) _ _)
  | .block h =>
    rw [Stmt.sites]
    exact sitesAt_all (fun stmt hstmt => Stmt.MadeOf.at hw (h stmt hstmt)) _
  | .ifThen hc ht =>
    rw [Stmt.sites]
    exact (hc.at.sites ctx none).append (Stmt.MadeOf.at hw ht ctx)
  | .ifElse hc ht he =>
    rw [Stmt.sites]
    exact ((hc.at.sites ctx none).append (Stmt.MadeOf.at hw ht ctx)).append (Stmt.MadeOf.at hw he _)
  | .whileDo hc hb =>
    rw [Stmt.sites]
    exact (hc.at.sites ctx none).append (Stmt.MadeOf.at hw hb ctx)
  | .function h =>
    rw [Stmt.sites]
    exact .cons (Function.MadeOf.at hw h).1 ((Function.MadeOf.at hw h).2 _ _)
  | .giveBack ht hk hv =>
    rw [Stmt.sites]
    exact .cons ⟨_, ht, hk, rfl, hw _ ht _ hk⟩ (sitesAt_optional (fun e he => (hv e he).at) _ _)
  | @Stmt.MadeOf.classDecl _ name superclass methods hn hs hm =>
    rw [Stmt.sites]
    refine .append (.cons (hn.at (m := .declaration _) rfl rfl) ?_) fun s hmem => ?_
    · cases superclass with
      | none => exact sitesAt_nil
      | some r =>
        exact .cons ((hs r rfl).at (m := .superclass r.name _) rfl rfl)
          (.cons ((hs r rfl).at (m := .lookup r.name) rfl rfl) sitesAt_nil)
    · obtain ⟨f, hf, hmem⟩ := List.mem_flatMap.mp hmem
      exact (Function.MadeOf.at hw (hm f hf)).2 _ _ s hmem

theorem Function.MadeOf.at (hw : ∀ t, P t → ∀ k, t.kind = .keyword k → t.lexeme = k.word)
    {f : Function Unit} (h : f.MadeOf P) : f.At P := by
  match h with
  | .mk hn hp hb =>
    refine ⟨hn.at (m := .declaration _) rfl rfl, fun ctx construct => ?_⟩
    rw [Function.sites]
    exact (sitesAt_declarations (fun n hn => (hp n hn).at (m := .declaration n) rfl rfl) _).append
      (sitesAt_all (fun stmt hstmt => Stmt.MadeOf.at hw (hb stmt hstmt)) _)

end

/-- The issues of reading are about the tokens of a text, and so are the sites of its statements. -/
theorem Grammar.parse_at (hw : ∀ t, P t → ∀ k, t.kind = .keyword k → t.lexeme = k.word)
    {tokens : Tokens} (h : ∀ t ∈ tokens.all, P t) :
    (∀ i ∈ (parse tokens).issues, i.At P) ∧ SitesAt P (sites (parse tokens).statements) := by
  obtain ⟨hissues, hstatements⟩ := parse_madeOf h
  exact ⟨hissues, sitesAt_all (fun stmt hstmt => (hstatements stmt hstmt).at hw) []⟩

theorem Mention.kind_ne_eof (m : Mention) : m.kind ≠ .eof := by
  cases m <;> simp [Mention.kind]

end LoxKit
