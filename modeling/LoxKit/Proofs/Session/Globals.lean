import LoxKit.Proofs.Machine.Quiet
import LoxKit.Proofs.Session.Idle

/-!
# The names of the globals

The globals bind the clock and what the top level of a session has declared so far: the names of
the declarations that ran to their end, in whatever turn. A declaration that fails adds no name, and
nor does an assignment, or anything in a block, a function or a loop, although the globals are in
reach of all of them. So a name without a link is undefined exactly if no declaration of it is
completed yet.

Headlines:
* `Good.gains`: what a statement adds to the names of the globals.
* `Progress`: how far the run of a program has come.
* `Session.declared`: the names that the top level of a session has declared.
* `FindsGlobals`: what is found and what is left in a moment, given these names.
* **`Session.globals_exact`**: the globals bind these names, between all statements and after all
  turns.
-/

namespace LoxKit

open LoxKit.Action

/-! ## Names that are added -/

/-- The globals bind names in addition to those that they have bound before. -/
def Adds (s : Store) (names : List String) (s' : Store) : Prop :=
  0 < s.frames.size → 0 < s'.frames.size ∧ ∀ name,
    (s'.frames.read 0 name).isSome = true ↔ (s.frames.read 0 name).isSome = true ∨ name ∈ names

/-- An outcome adds names to the globals if it is done, and none if it fails. -/
def Gains {α : Type} (s : Store) (names : List String) : Outcome α → Prop
  | .done _ s' => Adds s names s'
  | .failed _ _ s' => SameGlobals s s'
  | .broken _ | .unfinished => True

section Gains

variable {α β : Type} {s s₁ s₂ : Store} {names : List String}

theorem SameGlobals.adds (h : SameGlobals s s₁) : Adds s [] s₁ := by
  intro hpos
  obtain ⟨hpos₁, hnames⟩ := h hpos
  exact ⟨hpos₁, fun name => by rw [hnames]; simp⟩

theorem Adds.after (h : SameGlobals s s₁) (ha : Adds s₁ names s₂) : Adds s names s₂ := by
  intro hpos
  obtain ⟨hpos₁, hsame⟩ := h hpos
  obtain ⟨hpos₂, hadded⟩ := ha hpos₁
  exact ⟨hpos₂, fun name => by rw [hadded, hsame]⟩

theorem Adds.before (ha : Adds s names s₁) (h : SameGlobals s₁ s₂) : Adds s names s₂ := by
  intro hpos
  obtain ⟨hpos₁, hadded⟩ := ha hpos
  obtain ⟨hpos₂, hsame⟩ := h hpos₁
  exact ⟨hpos₂, fun name => by rw [hsame, hadded]⟩

theorem adds_define (s : Store) (name : String) (v : Value) :
    Adds s [name] { s with frames := s.frames.define 0 name v } := by
  intro hpos
  refine ⟨by rwa [Frames.size_define], fun key => ?_⟩
  rw [Frames.read_define _ hpos, List.mem_singleton]
  by_cases hkey : key = name <;> simp [hkey]

/-- What leaves the names as they are adds none. -/
theorem gains_nil {o : Outcome α} (h : ∀ s', o.store? = some s' → SameGlobals s s') :
    Gains s [] o := by
  cases o with
  | done a s' => exact (h s' rfl).adds
  | failed error line s' => exact h s' rfl
  | broken | unfinished => trivial

/-- An action behind one that leaves the names as they are. -/
theorem Gains.bind {a : Action α} {f : α → Action β}
    (ha : ∀ s', (a s).store? = some s' → SameGlobals s s')
    (hf : ∀ x s₁, a s = .done x s₁ → Gains s₁ names (f x s₁)) : Gains s names ((a >>= f) s) := by
  show Gains s names (Action.bind a f s)
  unfold Action.bind
  cases hd : a s with
  | done x s₁ =>
    have hsame := ha s₁ (by rw [hd]; rfl)
    have hgains := hf x s₁ hd
    dsimp only
    cases ho : f x s₁ with
    | done y s₂ =>
      rw [ho] at hgains
      exact hgains.after hsame
    | failed error line s₂ =>
      rw [ho] at hgains
      exact hsame.trans hgains
    | broken | unfinished => trivial
  | failed error line s₁ => exact ha s₁ (by rw [hd]; rfl)
  | broken | unfinished => trivial

/-- Following a reference changes nothing, also if it leads nowhere. -/
theorem follow_store {chain : Chain} {r : Reference Link}
    (h : (follow chain r s).store? = some s₁) : s₁ = s := by
  cases hf : follow chain r s with
  | done v s' =>
    rw [hf] at h
    cases h
    exact follow_done hf
  | failed error line s' =>
    rw [hf] at h
    cases h
    unfold follow at hf
    split at hf
    · cases hget : s.frames.getAt chain _ r.name.text <;> rw [hget] at hf <;> cases hf
    · split at hf <;> cases hf
      rfl
  | broken | unfinished =>
    rw [hf] at h
    cases h

/-- A name that is declared among the globals. -/
theorem gains_declare (s : Store) (name : String) (v : Value) :
    Gains s [name] ((do defineIn globals name v; pure .carryOn : Action Completion) s) :=
  adds_define s name v

/-- The second half of a class declaration binds a name that is bound since the first half. -/
theorem gains_declareClass (hpos : 0 < s.frames.size) {name : Name}
    (hs : SameGlobals { s with frames := s.frames.define 0 name.text .nil } s₁) (inner : Chain)
    (above : Option ClassValue) (methods : List (Function Link)) :
    Gains s [name.text] (declareClass globals inner name above methods s₁) := by
  obtain ⟨hpos₁, hadded⟩ := (adds_define s name.text .nil).before hs hpos
  have hbound : (s₁.frames.read 0 name.text).isSome = true :=
    (hadded name.text).mpr (Or.inr (List.mem_singleton_self _))
  obtain ⟨table, fresh, htable⟩ := newMethods_done inner methods .empty s₁
  rw [declareClass_eq rfl htable]
  refine (adds_define s name.text .nil).before (hs.trans ?_)
  exact (SameGlobals.define s₁ _ fun _ => hbound).trans (.of_frames rfl)

/-- A class declaration among the globals. It adds its name unless the superclass is not a class. -/
theorem gains_class {h : Host} {fuel depth : Nat} (hpos : 0 < s.frames.size) (name : Name)
    (superclass : Option (Reference Link)) (methods : List (Function Link)) :
    Gains s [name.text]
      (execute h (fuel + 1) depth globals (.classDecl name superclass methods) s) := by
  rw [execute]
  cases superclass with
  | none => exact gains_declareClass hpos (.refl _) globals none methods
  | some r =>
    refine .bind (fun s' hs => ?_) fun v s₁ hv => ?_
    · exact .of_frames (by rw [follow_store hs])
    · obtain rfl := follow_done hv
      cases v with
      | ofClass k => exact gains_declareClass hpos (.push _ _) _ (some k) methods
      | _ => exact SameGlobals.refl _

end Gains

/-! ## Statements -/

section Statements

variable {h : Host} {V : Moment → Prop} {st : Stmt Link} {fuel depth : Nat} {s : Store} {m : Moment}

theorem Good.pos (hg : Good V m) : 0 < m.store.frames.size := by
  cases hg with
  | run _ _ _ _ hs | apply hs | invoke hs | bind hs => exact hs.globals

/-- **A statement among the globals adds the names that it declares, unless it fails.** -/
theorem Good.gains (hV : ∀ {m m'}, V m → Calls h m m' → V m')
    (hv : V (.run (.stmt st) fuel depth globals s))
    (hg : Good V (.run (.stmt st) fuel depth globals s)) :
    Gains s st.declares (execute h fuel depth globals st s) := by
  by_cases hd : st.declares = []
  · rw [hd]
    refine gains_nil fun s' hs => hg.sameGlobals hV hv (fun _ => hd) ?_
    rw [Moment.leaves?, Node.run, Outcome.store?_map, hs]
  · cases fuel with
    | zero =>
      rw [execute]
      trivial
    | succ fuel =>
      cases st with
      | var name initializer =>
        cases initializer with
        | none =>
          rw [execute]
          exact gains_declare s name.text .nil
        | some e =>
          rw [execute]
          refine .bind (fun s' hs => ?_) fun v s₁ _ => gains_declare s₁ name.text v
          have hc : Calls h (.run (.stmt (.var name (some e))) (fuel + 1) depth globals s)
            (.run (.expr e) fuel depth globals s) := .part (i := 0) .first rfl
          refine (hg.calls hV hv hc).sameGlobals hV (hV hv hc) (fun _ => rfl) ?_
          rw [Moment.leaves?, Node.run, Outcome.store?_map, hs]
      | function f =>
        rw [execute]
        refine .bind (fun s' hs => ?_) fun c s₁ _ => gains_declare s₁ f.name.text (.closure c)
        cases hs
        exact .of_frames rfl
      | classDecl name superclass methods => exact gains_class hg.pos name superclass methods
      | _ => exact absurd rfl hd

/-- A statement leads to quiet moments only. -/
theorem Good.calls_quiet {chain : Chain} (hg : Good V (.run (.stmt st) fuel depth chain s))
    (hc : Calls h (.run (.stmt st) fuel depth chain s) m) : m.Quiet := by
  by_cases hd : st.declares = []
  · exact hg.quiet (fun _ => hd) hc
  · cases hc with
    | @part _ n' _ _ i _ _ _ _ hn =>
      -- of a declaration only expressions run
      have hpart : Node.stmtPart st i = some n' := hn
      unfold Node.stmtPart at hpart
      split at hpart <;> cases hpart
      case h_3 | h_11 => exact fun _ => rfl
      all_goals exact absurd rfl hd
    | block => exact absurd rfl hd

/-- The moments that a statement among the globals leads to. -/
theorem Good.under (hV : ∀ {m m'}, V m → Calls h m m' → V m')
    (hv : V (.run (.stmt st) fuel depth globals s))
    (hg : Good V (.run (.stmt st) fuel depth globals s))
    (hm : Relation.ReflTransGen (Calls h) (.run (.stmt st) fuel depth globals s) m) :
    m = .run (.stmt st) fuel depth globals s ∨
      (V m ∧ Good V m ∧ m.Quiet ∧ SameGlobals s m.store) := by
  induction hm with
  | refl => exact Or.inl rfl
  | tail _ hc ih =>
    rcases ih with rfl | ⟨hv', hg', hq, hsame⟩
    · exact Or.inr ⟨hV hv hc, hg.calls hV hv hc, hg.calls_quiet hc,
        hg.sameGlobals_calls hV hv hg.calls_quiet hc⟩
    · exact Or.inr ⟨hV hv' hc, hg'.calls hV hv' hc, hg'.quiet hq hc,
        hsame.trans (hg'.sameGlobals_calls hV hv' (hg'.quiet hq) hc)⟩

end Statements

/-! ## What is found -/

/-- Whether a name is that of the clock or among these. -/
def IsGlobal (names : List String) (name : String) : Prop :=
  name = "clock" ∨ name ∈ names

/-- The globals bind the clock and these names, and nothing else. -/
def Store.Knows (s : Store) (names : List String) : Prop :=
  ∀ name, (s.frames.read 0 name).isSome = true ↔ IsGlobal names name

/-- What is found and what is left in a moment in which the globals bind the clock and these
names. -/
structure FindsGlobals (h : Host) (names : List String) (m : Moment) : Prop where
  knows : m.store.Knows names
  /-- No expression adds a name, and so no assignment does, also if it fails. -/
  keeps : ∀ e fuel depth chain s s', m = .run (.expr e) fuel depth chain s →
    m.leaves? h = some s' → s'.Knows names
  /-- What is read without a link is undefined unless it is a global. -/
  reads : ∀ r fuel depth chain s, m = .run (.expr (.var r)) (fuel + 1) depth chain s →
    r.link = none →
    (evaluate h (fuel + 1) depth chain (.var r) s =
        .failed (.undefinedVariable r.name.text) r.name.pos.line s ↔ ¬IsGlobal names r.name.text) ∧
      (IsGlobal names r.name.text →
        ∃ v, evaluate h (fuel + 1) depth chain (.var r) s = .done v s)
  /-- What is assigned without a link is undefined unless it is a global. -/
  assigns : ∀ r value fuel depth chain s v s₁,
    m = .run (.expr (.assign r value)) (fuel + 1) depth chain s → r.link = none →
    evaluate h fuel depth chain value s = .done v s₁ →
    (evaluate h (fuel + 1) depth chain (.assign r value) s =
        .failed (.undefinedVariable r.name.text) r.name.pos.line s₁ ↔
          ¬IsGlobal names r.name.text) ∧
      (IsGlobal names r.name.text → evaluate h (fuel + 1) depth chain (.assign r value) s =
        .done v { s₁ with frames := s₁.frames.define 0 r.name.text v })

section Finding

variable {h : Host} {V : Moment → Prop} {s s' : Store} {names : List String}

theorem Store.Knows.of_same (hk : s.Knows names) (hpos : 0 < s.frames.size)
    (hs : SameGlobals s s') : s'.Knows names := by
  intro name
  rw [(hs hpos).2]
  exact hk name

theorem Store.Knows.of_adds {more : List String} (hk : s.Knows names) (hpos : 0 < s.frames.size)
    (ha : Adds s more s') : s'.Knows (names ++ more) := by
  intro name
  rw [(ha hpos).2, hk name]
  unfold IsGlobal
  rw [List.mem_append, or_assoc]

section Unlinked

variable {chain : Chain} {r : Reference Link} {v : Value}

theorem follow_of_bound (hr : r.link = none) (hv : s.frames.read 0 r.name.text = some v) :
    follow chain r s = .done v s := by
  unfold follow
  simp only [hr, get?_globals, hv]

theorem follow_of_unbound (hr : r.link = none) (hv : s.frames.read 0 r.name.text = none) :
    follow chain r s = .failed (.undefinedVariable r.name.text) r.name.pos.line s := by
  unfold follow
  simp only [hr, get?_globals, hv]

theorem store_of_bound (hr : r.link = none)
    (hb : (s.frames.read 0 r.name.text).isSome = true) :
    store chain r v s = .done () { s with frames := s.frames.define 0 r.name.text v } := by
  have hholder : s.frames.holder? globals r.name.text = some 0 :=
    List.find?_cons_of_pos hb
  unfold store
  simp only [hr, hholder]

theorem store_of_unbound (hr : r.link = none)
    (hb : ¬(s.frames.read 0 r.name.text).isSome = true) :
    store chain r v s = .failed (.undefinedVariable r.name.text) r.name.pos.line s := by
  have hholder : s.frames.holder? globals r.name.text = none :=
    List.find?_cons_of_neg hb
  unfold store
  simp only [hr, hholder]

end Unlinked

theorem evaluate_assign_of_value {h : Host} {fuel depth : Nat} {chain : Chain} {r : Reference Link}
    {value : Expr Link} {v : Value} {s₁ : Store}
    (hv : evaluate h fuel depth chain value s = .done v s₁) :
    evaluate h (fuel + 1) depth chain (.assign r value) s =
      (store chain r v s₁).map fun _ => v := by
  rw [evaluate_assign]
  unfold Action.bind
  rw [hv]
  dsimp only
  cases store chain r v s₁ <;> rfl

/-- In a quiet moment the names of the globals are found as they are. -/
theorem Good.finds_globals (hV : ∀ {m m'}, V m → Calls h m m' → V m') {m : Moment} (hv : V m)
    (hg : Good V m) (hq : m.Quiet) (hk : m.store.Knows names) : FindsGlobals h names m := by
  refine ⟨hk, ?_, ?_, ?_⟩
  · intro e fuel depth chain s s' hm hl
    exact hk.of_same hg.pos (hg.sameGlobals hV hv hq hl)
  · rintro r fuel depth chain s rfl hr
    have hbound : (s.frames.read 0 r.name.text).isSome = true ↔ IsGlobal names r.name.text :=
      hk r.name.text
    rw [evaluate, ← hbound]
    cases hv : s.frames.read 0 r.name.text with
    | none =>
      rw [follow_of_unbound hr hv]
      simp
    | some v =>
      rw [follow_of_bound hr hv]
      simp
  · rintro r value fuel depth chain s v s₁ rfl hr hvalue
    have hc : Calls h (.run (.expr (.assign r value)) (fuel + 1) depth chain s)
      (.run (.expr value) fuel depth chain s) := .part (i := 0) .first rfl
    have hl : Moment.leaves? h (.run (.expr value) fuel depth chain s) = some s₁ := by
      rw [Moment.leaves?, Node.run, hvalue]
      rfl
    have hk₁ : s₁.Knows names := hk.of_same hg.pos
      ((hg.calls hV hv hc).sameGlobals hV (hV hv hc) (fun _ => rfl) hl)
    rw [evaluate_assign_of_value hvalue, ← hk₁ r.name.text]
    by_cases hb : (s₁.frames.read 0 r.name.text).isSome = true
    · rw [store_of_bound hr hb]
      simp [hb, Outcome.map]
    · rw [store_of_unbound hr hb]
      simp [hb, Outcome.map]

/-- A statement itself is no expression. -/
theorem FindsGlobals.of_statement {st : Stmt Link} {fuel depth : Nat} {chain : Chain}
    (hk : s.Knows names) : FindsGlobals h names (.run (.stmt st) fuel depth chain s) :=
  ⟨hk, (fun _ _ _ _ _ _ hm => by cases hm), (fun _ _ _ _ _ hm => by cases hm),
    fun _ _ _ _ _ _ _ _ hm => by cases hm⟩

end Finding

/-! ## Programs -/

/-- How far the run of a program has come: the names that its statements have declared so far, the
statements that are left, and the store in which the first of them begins. -/
inductive Progress (h : Host) (fuel : Nat) :
    List (Stmt Link) → Store → List String → List (Stmt Link) → Store → Prop
  | here {stmts : List (Stmt Link)} {s : Store} : Progress h fuel stmts s [] stmts s
  | later {stmt : Stmt Link} {stmts rest : List (Stmt Link)} {s s₁ s₂ : Store}
      {names : List String} (he : execute h fuel 0 globals stmt s = .done .carryOn s₁)
      (hp : Progress h fuel stmts s₁ names rest s₂) :
      Progress h fuel (stmt :: stmts) s (stmt.declares ++ names) rest s₂

/-- The names that the statements of a program declare, as far as they are completed. -/
def completed (h : Host) (fuel : Nat) : List (Stmt Link) → Store → List String
  | [], _ => []
  | stmt :: stmts, s =>
    match execute h fuel 0 globals stmt s with
    | .done .carryOn s' => stmt.declares ++ completed h fuel stmts s'
    | _ => []

/-- What is found in the run of a program that begins when the globals bind the clock and these
names. It makes no difference whether the run ends. -/
structure FindsThroughout (h : Host) (fuel : Nat) (program : List (Stmt Link)) (s : Store)
    (names : List String) : Prop where
  /-- Between the statements the globals bind what is declared by then. -/
  between : ∀ more rest s₁, Progress h fuel program s more rest s₁ → s₁.Knows (names ++ more)
  /-- A statement that fails adds nothing. -/
  failing : ∀ more stmt rest s₁ error line s₂, Progress h fuel program s more (stmt :: rest) s₁ →
    execute h fuel 0 globals stmt s₁ = .failed error line s₂ → s₂.Knows (names ++ more)
  /-- While a statement runs, nothing is declared. -/
  within : ∀ more stmt rest s₁ m, Progress h fuel program s more (stmt :: rest) s₁ →
    Relation.ReflTransGen (Calls h) (.run (.stmt stmt) fuel 0 globals s₁) m →
    FindsGlobals h (names ++ more) m

section Programs

variable {h : Host} {V : Moment → Prop} {fuel : Nat} {program rest : List (Stmt Link)}
  {s s₁ : Store} {names more : List String}

theorem Progress.begins (hp : Progress h fuel program s more rest s₁) {m : Moment}
    (hb : Begins h fuel rest s₁ m) : Begins h fuel program s m := by
  induction hp with
  | here => exact hb
  | later he _ ih => exact .later he (ih hb)

/-- Each statement that is completed adds the names that it declares. -/
theorem Progress.knows (hV : ∀ {m m'}, V m → Calls h m m' → V m')
    (hp : Progress h fuel program s more rest s₁)
    (hbegins : ∀ m, Begins h fuel program s m → V m ∧ Good V m) (hpos : 0 < s.frames.size)
    (hk : s.Knows names) : 0 < s₁.frames.size ∧ s₁.Knows (names ++ more) := by
  induction hp generalizing names with
  | here => exact ⟨hpos, by rwa [List.append_nil]⟩
  | later he _ ih =>
    obtain ⟨hv, hg⟩ := hbegins _ .first
    have hadds := hg.gains hV hv
    rw [he] at hadds
    rw [← List.append_assoc]
    exact ih (fun m hm => hbegins m (.later he hm)) (hadds hpos).1 (hk.of_adds hpos hadds)

/-- What is found in the run of a program whose statements begin as they should. -/
theorem findsThroughout (hV : ∀ {m m'}, V m → Calls h m m' → V m')
    (hbegins : ∀ m, Begins h fuel program s m → V m ∧ Good V m) (hpos : 0 < s.frames.size)
    (hk : s.Knows names) : FindsThroughout h fuel program s names := by
  refine ⟨?_, ?_, ?_⟩
  · exact fun more rest s₁ hp => (hp.knows hV hbegins hpos hk).2
  · intro more stmt rest s₁ error line s₂ hp he
    obtain ⟨hpos₁, hk₁⟩ := hp.knows hV hbegins hpos hk
    obtain ⟨hv, hg⟩ := hbegins _ (hp.begins .first)
    have hsame := hg.gains hV hv
    rw [he] at hsame
    exact hk₁.of_same hpos₁ hsame
  · intro more stmt rest s₁ m hp hm
    obtain ⟨hpos₁, hk₁⟩ := hp.knows hV hbegins hpos hk
    obtain ⟨hv, hg⟩ := hbegins _ (hp.begins .first)
    rcases hg.under hV hv hm with rfl | ⟨hv', hg', hq, hsame⟩
    · exact .of_statement hk₁
    · exact hg'.finds_globals hV hv' hq (hk₁.of_same hpos₁ hsame)

/-- A run that ends has come through all statements, or up to the one that fails. -/
theorem progress_of_store {s' : Store} (hs : (runProgram h fuel program s).store? = some s') :
    Progress h fuel program s (completed h fuel program s) [] s' ∨
      ∃ stmt rest s₁ error line, execute h fuel 0 globals stmt s₁ = .failed error line s' ∧
        Progress h fuel program s (completed h fuel program s) (stmt :: rest) s₁ := by
  induction program generalizing s with
  | nil =>
    cases hs
    exact Or.inl .here
  | cons stmt stmts ih =>
    rw [runProgram] at hs
    cases he : execute h fuel 0 globals stmt s with
    | done c s₁ =>
      cases c with
      | carryOn =>
        simp only [he] at hs
        rw [completed, he]
        rcases ih hs with hp | ⟨stmt', rest, s₂, error, line, hfails, hp⟩
        · exact Or.inl (.later he hp)
        · exact Or.inr ⟨stmt', rest, s₂, error, line, hfails, .later he hp⟩
      | returned v =>
        simp only [he] at hs
        exact absurd hs (by simp [Outcome.store?])
    | failed error line s₁ =>
      simp only [he] at hs
      cases hs
      rw [completed, he]
      exact Or.inr ⟨stmt, stmts, s, error, line, he, .here⟩
    | broken | unfinished =>
      simp only [he] at hs
      exact absurd hs (by simp [Outcome.store?])

end Programs

/-! ## Sessions -/

/-- The names that the top level of a text declares in a turn. A turn that is cut off leaves the
store as it was before. -/
def Turn.declared (h : Host) (t : Turn) (s : Store) : List String :=
  if Report.issuesOf t.text ≠ [] ∨ t.checkOnly = true then []
  else if (runProgram h t.fuel (programOf t.text) s).store?.isSome then
    completed h t.fuel (programOf t.text) s
  else []

/-- The names that the top level of a session declares in some turns. -/
def Session.declared (h : Host) (session : Session) : List Turn → List String
  | [] => []
  | t :: turns => t.declared h session.store ++
    declared h (session.run h t.fuel t.text t.checkOnly).1 turns

section Sessions

variable {h : Host} {s : Store} {names : List String}

/-- The run of a clean text in a sound store. -/
theorem Healthy.findsThroughout (hs : Healthy s) (hk : s.Knows names) {text : String}
    (hclean : Report.issuesOf text = []) (fuel : Nat) :
    FindsThroughout h fuel (programOf text) s names := by
  have hgood := (hs.runProgram_meets (h := h) hclean fuel).2
  exact LoxKit.findsThroughout (fun _ _ => trivial) (fun m hm => ⟨trivial, hgood m hm⟩) hs.globals
    hk

/-- A turn leaves what its run leaves, if the text runs and the run ends. -/
theorem Turn.ending_store (h : Host) (t : Turn) (s : Store) : (t.ending h s).store =
    if Report.issuesOf t.text ≠ [] ∨ t.checkOnly = true then s
    else (runProgram h t.fuel (programOf t.text) s).store?.getD s := by
  unfold Turn.ending
  by_cases hissues : Report.issuesOf t.text ≠ []
  · rw [if_pos hissues, if_pos (Or.inl hissues)]
  · rw [if_neg hissues]
    by_cases hcheck : t.checkOnly = true
    · rw [if_pos hcheck, if_pos (Or.inr hcheck)]
    · rw [if_neg hcheck, if_neg (not_or.mpr ⟨hissues, hcheck⟩)]
      cases runProgram h t.fuel (programOf t.text) s <;> rfl

/-- What the globals bind after a turn. -/
theorem Turn.knows (t : Turn) (hs : Healthy s) (hk : s.Knows names) :
    (t.ending h s).store.Knows (names ++ t.declared h s) := by
  rw [Turn.ending_store]
  unfold Turn.declared
  by_cases hidle : Report.issuesOf t.text ≠ [] ∨ t.checkOnly = true
  · rwa [if_pos hidle, if_pos hidle, List.append_nil]
  · rw [if_neg hidle, if_neg hidle]
    have hfinds := hs.findsThroughout (h := h) hk (not_not.mp (not_or.mp hidle).1) t.fuel
    cases hleft : (runProgram h t.fuel (programOf t.text) s).store? with
    | none => simpa using hk
    | some s' =>
      rw [Option.isSome_some, if_pos rfl, Option.getD_some]
      rcases progress_of_store hleft with hp | ⟨stmt, rest, s₁, error, line, hfails, hp⟩
      · exact hfinds.between _ _ _ hp
      · exact hfinds.failing _ _ _ _ _ _ _ hp hfails

theorem Session.run_store (session : Session) (h : Host) (t : Turn) :
    (session.run h t.fuel t.text t.checkOnly).1.store = (t.ending h session.store).store := by
  obtain ⟨hrecord, hstore, -⟩ := session.turn_eq h t
  have hrun : (session.run h t.fuel t.text t.checkOnly).1.store =
      { (session.turn h t).2.store with output := (session.turn h t).1.output } := rfl
  rw [hrun, hrecord, hstore]

/-- What the globals bind after some turns. -/
theorem Session.knows_after (turns : List Turn) : ∀ {session : Session} {names : List String},
    Healthy session.store → session.store.Knows names →
      Healthy (session.after h turns).store ∧
        (session.after h turns).store.Knows (names ++ session.declared h turns) := by
  induction turns with
  | nil => exact fun hs hk => ⟨hs, by rwa [declared, List.append_nil]⟩
  | cons t turns ih =>
    intro session names hs hk
    have hstore := session.run_store h t
    rw [declared, ← List.append_assoc]
    exact ih (hstore ▸ (t.ending_sound hs).1) (hstore ▸ t.knows hs hk)

theorem knows_initial : Store.initial.Knows [] := by
  intro name
  show ((Bindings.empty.set "clock" (Value.native .clock)).get? name).isSome = true ↔ _
  rw [Bindings.get?_set, IsGlobal]
  by_cases hname : name = "clock" <;> simp [hname, Bindings.get?_empty]

/-- **The globals of a session bind the clock and what its top level has declared, and nothing else:
after all its turns and throughout the run of the next text.** -/
theorem Session.globals_exact (h : Host) (verbose : Bool) (limit : Option Int) (turns : List Turn) :
    ((Session.start verbose limit).after h turns).store.Knows
        ((Session.start verbose limit).declared h turns) ∧
      ∀ text, Report.issuesOf text = [] → ∀ fuel,
        FindsThroughout h fuel (programOf text) ((Session.start verbose limit).after h turns).store
          ((Session.start verbose limit).declared h turns) := by
  have hs : Healthy (Session.start verbose limit).store := .initial _
  have hk : (Session.start verbose limit).store.Knows [] := knows_initial
  obtain ⟨hs', hk'⟩ := knows_after (h := h) turns hs hk
  rw [List.nil_append] at hk'
  exact ⟨hk', fun text hclean fuel => hs'.findsThroughout hk' hclean fuel⟩

end Sessions

/-- In `var a; b = a;` the assignment finds `a`, which is declared by then, but no `b`. -/
theorem globals_exact_assigning :
    ∃ s, s.Knows ["a"] ∧
      evaluate ⟨fun _ => 0, 1000⟩ 8 0 globals
        (.assign ⟨⟨"b", ⟨1, 7⟩⟩, none⟩ (.var ⟨⟨"a", ⟨1, 11⟩⟩, none⟩)) s =
          .failed (.undefinedVariable "b") 1 s := by
  have hclean : Report.issuesOf "var a; b = a;" = [] := by cbv
  have hprogram : programOf "var a; b = a;" = [.var ⟨"a", ⟨1, 4⟩⟩ none,
      .expression (.assign ⟨⟨"b", ⟨1, 7⟩⟩, none⟩ (.var ⟨⟨"a", ⟨1, 11⟩⟩, none⟩))] := by cbv
  have hfirst : execute ⟨fun _ => 0, 1000⟩ 9 0 globals (.var ⟨"a", ⟨1, 4⟩⟩ none) .initial =
      .done .carryOn
        { Store.initial with frames := Store.initial.frames.define 0 "a" .nil } := by
    rw [execute]
    rfl
  have hfinds := (Session.globals_exact ⟨fun _ => 0, 1000⟩ false none []).2 _ hclean 9
  rw [hprogram] at hfinds
  have hassign := hfinds.within _ _ _ _ _ (.later hfirst .here)
    (.single (.part (i := 0) .first rfl))
  refine ⟨_, hassign.knows, ?_⟩
  refine (hassign.assigns _ _ _ _ _ _ .nil _ rfl rfl ?_).1.mpr ?_
  · rw [evaluate]
    rfl
  · show ¬IsGlobal ["a"] "b"
    simp [IsGlobal]

end LoxKit
