import LoxKit.Proofs.Machine.Reached

/-!
# Histories of sessions

A session runs one text after the other, and what one leaves in the store is there for the next. The
moments that a session comes to are those in which a statement of a text begins, and all that these
lead to. Every text counts, also one that fails or never ends.

Headlines:
* `CleanText.of_ready`: a text that runs is clean, and its program is linked.
* `Visited`: the moments that a session comes to.
* **`Visited.good`**: what is true of all of them.
-/

namespace LoxKit

/-! ## Texts that run -/

namespace Report

theorem ok_iff_issues (r : Report) : r.ok = true ↔ r.issues = [] := by
  rw [ok, issues, List.isEmpty_iff, List.map_eq_nil_iff]

/-- If all issues were noted and none are there, there were none to note. -/
theorem eq_nil_of_ok_noteAll {r r' : Report} {is : List Issue} (h : r.noteAll is = (r', false))
    (hok : r'.issues = []) : is = [] := by
  obtain ⟨k, hk, hlen⟩ := r.noteAll_issues is
  rw [h] at hk hlen
  rw [hok] at hk
  have htake := (List.append_eq_nil_iff.mp hk.symm).2
  rwa [List.take_of_length_le (hlen rfl)] at htake

theorem issues_info (r : Report) (line : String) : (r.info line).issues = r.issues := by
  unfold info
  split <;> rfl

/-- A report without issues about a text that was read. -/
theorem of_readText {r r' : Report} {text : String} {stmts : List (Stmt Unit)}
    (h : r.readText text = (r', some stmts)) (hok : r'.issues = []) :
    (Tokens.ofText text).issues = [] ∧ Grammar.parse (Tokens.ofText text) = ⟨stmts, []⟩ := by
  unfold readText at h
  rcases hn₁ : r.noteAll (Tokens.ofText text).issues with ⟨r₁, full₁⟩
  simp only [hn₁] at h
  cases full₁ with
  | true => exact absurd h (by simp)
  | false =>
    rcases hn₂ : (r₁.info ("Scanned " ++ toString (Tokens.ofText text).all.length ++
      " tokens")).noteAll (Grammar.parse (Tokens.ofText text)).issues with ⟨r₂, full₂⟩
    simp only [hn₂] at h
    cases full₂ with
    | true => exact absurd h (by simp)
    | false =>
      simp only [Prod.mk.injEq, Option.some.injEq] at h
      obtain ⟨rfl, rfl⟩ := h
      have hparsed := eq_nil_of_ok_noteAll hn₂ hok
      have hr₁ : r₁.issues = [] := by
        obtain ⟨k, hk, -⟩ := (r₁.info _).noteAll_issues (Grammar.parse (Tokens.ofText text)).issues
        rw [hn₂, hok, issues_info] at hk
        exact (List.append_eq_nil_iff.mp hk.symm).1
      refine ⟨eq_nil_of_ok_noteAll hn₁ hr₁, ?_⟩
      rw [← hparsed]

end Report

/-- A text that runs is clean, and its program is linked. -/
theorem CleanText.of_ready {r r' : Report} {text : String} {program : List (Stmt Link)}
    (h : r.compile text = (r', .ready program)) :
    ∃ stmts, CleanText text stmts ∧ program = (linkProgram stmts).tree := by
  unfold Report.compile at h
  rcases hread : r.readText text with ⟨r₁, read⟩
  simp only [hread] at h
  cases read with
  | none => exact absurd h (by simp)
  | some stmts =>
    by_cases hok : r₁.ok = true
    · simp only [hok, Bool.not_true, Bool.false_eq_true, if_false] at h
      obtain ⟨hscanned, hparsed⟩ := Report.of_readText hread ((Report.ok_iff_issues r₁).mp hok)
      unfold Report.link at h
      rcases hlink : (r₁.info ("Parsed " ++ toString stmts.length ++
        " top-level statements")).noteAll (linkProgram stmts).issues with ⟨r₂, full⟩
      simp only [hlink] at h
      cases full with
      | true => exact absurd h (by simp)
      | false =>
        by_cases hok₂ : r₂.ok = true
        · simp only [hok₂, Bool.not_true, Bool.false_eq_true, if_false, Prod.mk.injEq,
            Compiled.ready.injEq] at h
          have hlinked := Report.eq_nil_of_ok_noteAll hlink ((Report.ok_iff_issues r₂).mp hok₂)
          exact ⟨stmts, ⟨hscanned, hparsed, hlinked⟩, h.2.symm⟩
        · simp only [hok₂] at h
          exact absurd h (by simp)
    · simp only [hok] at h
      exact absurd h (by simp)

/-! ## Programs -/

/-- The moments in which the statements of a program begin. -/
inductive Begins (h : Host) (fuel : Nat) : List (Stmt Link) → Store → Moment → Prop
  | first {stmt : Stmt Link} {stmts : List (Stmt Link)} {s : Store} :
      Begins h fuel (stmt :: stmts) s (.run (.stmt stmt) fuel 0 Action.globals s)
  | later {stmt : Stmt Link} {stmts : List (Stmt Link)} {s s' : Store} {m : Moment}
      (he : execute h fuel 0 Action.globals stmt s = .done .carryOn s')
      (hb : Begins h fuel stmts s' m) : Begins h fuel (stmt :: stmts) s m

section Programs

variable {h : Host} {V : Moment → Prop} {fuel : Nat}

theorem leaves_of_execute {stmt : Stmt Link} {c : Completion} {depth : Nat} {chain : Chain}
    {s s' : Store} (he : execute h fuel depth chain stmt s = .done c s') :
    Moment.leaves? h (.run (.stmt stmt) fuel depth chain s) = some s' := by
  rw [Moment.leaves?, Node.run, he]
  rfl

theorem foldl_add_nil (names : List String) : names.foldl Scopes.add [] = [] := by
  induction names with
  | nil => rfl
  | cons name names ih => exact ih

theorem linkStmts_topLevel {stmt : Stmt Unit} (hp : stmt.Proper) (stmts : List (Stmt Unit)) :
    (linkStmts .topLevel [] (stmt :: stmts)).tree =
      (linkStmt .topLevel [] stmt).tree :: (linkStmts .topLevel [] stmts).tree := by
  rw [linkStmts, scopes_linkStmt .topLevel hp, foldl_add_nil]

/-- The first statement of a program, and the others. -/
theorem Account.topLevel {stmt : Stmt Unit} {stmts : List (Stmt Unit)}
    (hacc : Account V ⟨.topLevel, [], .stmts (stmt :: stmts)⟩ []) :
    Account V ⟨.topLevel, [], .stmt stmt⟩ [] ∧ Account V ⟨.topLevel, [], .stmts stmts⟩ [] := by
  have hp : Place.part ⟨.topLevel, [], .stmts (stmt :: stmts)⟩ 0 = some ⟨.topLevel, [], .stmt stmt⟩ :=
    rfl
  have hp' : Place.part ⟨.topLevel, [], .stmts (stmt :: stmts)⟩ 1 =
      some ⟨.topLevel, [], .stmts stmts⟩ := by
    have hproper : stmt.Proper := hacc.regular.proper _ List.mem_cons_self
    simp only [Place.part, Place.scopesAt, Node.part, scopes_linkStmt .topLevel hproper,
      foldl_add_nil, Option.map_some]
  exact ⟨.part hacc hp, .part hacc hp'⟩

/-- What a program keeps, and what is true of the moments in which its statements begin. -/
theorem program_meets (hV : ∀ {m m'}, V m → Calls h m m' → V m') {stmts : List (Stmt Unit)} :
    ∀ {s : Store}, Account V ⟨.topLevel, [], .stmts stmts⟩ [] → StoreSound V s →
      (∀ m, Begins h fuel (linkStmts .topLevel [] stmts).tree s m → V m) →
      Meets V s (runProgram h fuel (linkStmts .topLevel [] stmts).tree s) (fun _ _ => True) ∧
        ∀ m, Begins h fuel (linkStmts .topLevel [] stmts).tree s m → Good V m := by
  induction stmts with
  | nil =>
    intro s _ hs _
    rw [linkStmts, runProgram]
    exact ⟨⟨.refl s, hs, trivial⟩, fun m hm => by cases hm⟩
  | cons stmt stmts ih =>
    intro s hacc hs hbegins
    have hproper : stmt.Proper := hacc.regular.proper _ List.mem_cons_self
    obtain ⟨hfirst, hrest⟩ := hacc.topLevel
    rw [linkStmts_topLevel hproper] at hbegins ⊢
    have hr : Running V ⟨.topLevel, [], .stmt stmt⟩ [] fuel 0 Action.globals s :=
      ⟨hfirst, rfl, hbegins _ .first, .globals, hs, trivial⟩
    have hmeets := meets_map.mp ((keeps hV fuel).run hr)
    rw [runProgram]
    cases ho : execute h fuel 0 Action.globals (linkStmt .topLevel [] stmt).tree s with
    | done c s' =>
      rw [ho] at hmeets
      obtain ⟨he, hs', hgives⟩ := hmeets
      cases c with
      | returned v => exact absurd rfl hgives.2
      | carryOn =>
        obtain ⟨hrun, hgood⟩ := ih hrest hs' fun m hm => hbegins m (.later ho hm)
        refine ⟨hrun.after he, fun m hm => ?_⟩
        cases hm with
        | first => exact hr.good
        | later he' hm =>
          rw [ho] at he'
          cases he'
          exact hgood m hm
    | failed error line s' =>
      rw [ho] at hmeets
      refine ⟨hmeets, fun m hm => ?_⟩
      cases hm with
      | first => exact hr.good
      | later he' _ => exact absurd (ho.symm.trans he') (by simp)
    | broken breakage =>
      rw [ho] at hmeets
      exact hmeets.elim
    | unfinished =>
      refine ⟨trivial, fun m hm => ?_⟩
      cases hm with
      | first => exact hr.good
      | later he' _ => exact absurd (ho.symm.trans he') (by simp)

end Programs

/-! ## Sessions -/

/-- A text that a session is given. -/
structure Turn where
  text : String
  checkOnly : Bool
  /-- The steps that it is allowed. -/
  fuel : Nat

namespace Session

/-- A session after some turns. -/
def after (h : Host) (session : Session) (turns : List Turn) : Session :=
  turns.foldl (fun session turn => (session.run h turn.fuel turn.text turn.checkOnly).1) session

theorem after_append (h : Host) (session : Session) (turns : List Turn) (turn : Turn) :
    session.after h (turns ++ [turn]) =
      ((session.after h turns).run h turn.fuel turn.text turn.checkOnly).1 := by
  rw [after, List.foldl_append]
  rfl

/-- The part of a run before anything is executed. -/
def compiled (session : Session) (text : String) : Report × Compiled :=
  (session.report.reset.setSource text.toList).compile text

theorem run_eq (session : Session) (h : Host) (fuel : Nat) (text : String) (checkOnly : Bool) :
    (∃ report program, session.compiled text = (report, .ready program) ∧ checkOnly = false ∧
      session.run h fuel text checkOnly = execute { session with report } h fuel program) ∨
    ∃ report, session.run h fuel text checkOnly = ({ session with report }, .dataError) ∨
      session.run h fuel text checkOnly = ({ session with report }, .ok) := by
  unfold run
  rcases hc : session.compiled text with ⟨report, _ | phase | program⟩
  all_goals
    unfold compiled at hc
    simp only [hc]
  · exact Or.inr ⟨report, Or.inl rfl⟩
  · exact Or.inr ⟨_, Or.inl rfl⟩
  · cases checkOnly with
    | true => exact Or.inr ⟨report, Or.inr rfl⟩
    | false => exact Or.inl ⟨report, program, rfl, rfl, rfl⟩

/-- A turn leaves the store as it is, or it leaves what its program leaves. -/
theorem run_left (session : Session) (h : Host) (fuel : Nat) (text : String) (checkOnly : Bool) :
    (session.run h fuel text checkOnly).1.store = session.store ∨
      ∃ report program, session.compiled text = (report, .ready program) ∧ checkOnly = false ∧
        (runProgram h fuel program session.store).store? =
          some (session.run h fuel text checkOnly).1.store := by
  rcases session.run_eq h fuel text checkOnly with
    ⟨report, program, hr, hc, hrun⟩ | ⟨report, hrun | hrun⟩
  · rw [hrun, execute]
    cases ho : runProgram h fuel program session.store with
    | done u s' => exact .inr ⟨report, program, hr, hc, by rw [ho]; rfl⟩
    | failed error line s' => exact .inr ⟨report, program, hr, hc, by rw [ho]; rfl⟩
    | broken | unfinished => exact .inl rfl
  · exact .inl (by rw [hrun])
  · exact .inl (by rw [hrun])

end Session

/-- The moments that a session comes to in some turns. -/
inductive Visited (h : Host) (session : Session) (turns : List Turn) : Moment → Prop
  | begins {before later : List Turn} {turn : Turn} {report : Report} {program : List (Stmt Link)}
      {m : Moment} (ht : turns = before ++ turn :: later) (hc : turn.checkOnly = false)
      (hr : (session.after h before).compiled turn.text = (report, .ready program))
      (hb : Begins h turn.fuel program (session.after h before).store m) :
      Visited h session turns m
  | calls {m m' : Moment} (hm : Visited h session turns m) (hc : Calls h m m') :
      Visited h session turns m'

theorem StoreSound.initial (V : Moment → Prop) : StoreSound V .initial := by
  refine ⟨Nat.zero_lt_one, fun id name v hr => ?_, fun id name v hr => ?_⟩
  · unfold Store.initial at hr
    simp only [Frames.read_push] at hr
    split at hr
    · rw [Bindings.get?_set] at hr
      split at hr
      · cases hr
        trivial
      · exact absurd hr (by simp)
    · rw [Frames.read_of_le _ (Nat.zero_le _)] at hr
      exact absurd hr (by simp)
  · exact absurd hr (by simp [Store.initial])

section Turns

variable {h : Host} {verbose : Bool} {limit : Option Int} {turns : List Turn}

/-- What a turn leaves is sound, and what is true of the moments in which its statements begin. -/
theorem turn_meets {V : Moment → Prop} (hV : ∀ {m m'}, V m → Calls h m m' → V m') {session : Session}
    (hs : StoreSound V session.store) {text : String} {report : Report}
    {program : List (Stmt Link)} (hr : session.compiled text = (report, .ready program)) (fuel : Nat)
    (hbegins : ∀ m, Begins h fuel program session.store m → V m) :
    Meets V session.store (runProgram h fuel program session.store) (fun _ _ => True) ∧
      ∀ m, Begins h fuel program session.store m → Good V m := by
  obtain ⟨stmts, hclean, rfl⟩ := CleanText.of_ready hr
  exact program_meets hV (.text hclean) hs hbegins

/-- The store of a session is sound after each of its turns. -/
theorem sound_after (before : List Turn) :
    ∀ later, turns = before ++ later →
      StoreSound (Visited h (.start verbose limit) turns)
        ((Session.start verbose limit).after h before).store := by
  induction before using List.reverseRecOn with
  | nil => exact fun _ _ => .initial _
  | append_singleton before turn ih =>
    intro later ht
    rw [List.append_assoc, List.singleton_append] at ht
    have hs := ih (turn :: later) ht
    rw [Session.after_append]
    rcases Session.run_left _ h turn.fuel turn.text turn.checkOnly with
      hstore | ⟨report, program, hr, hc, hl⟩
    · rwa [hstore]
    · have hmeets := turn_meets .calls hs hr turn.fuel fun m hm => .begins ht hc hr hm
      exact (hmeets.1.left hl).2

/-- **What is true of all moments that a session comes to.** -/
theorem Visited.good {m : Moment} (hm : Visited h (.start verbose limit) turns m) :
    Good (Visited h (.start verbose limit) turns) m := by
  induction hm with
  | begins ht hc hr hb =>
    exact (turn_meets .calls (sound_after _ _ ht) hr _ fun m hm => .begins ht hc hr hm).2 _ hb
  | calls hm hc ih => exact ih.calls .calls hm hc

end Turns

end LoxKit
