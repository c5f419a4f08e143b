import LoxKit.Proofs.Session.Limit

/-!
# Turns that execute nothing

A turn whose text has issues, or in which the text is only checked, executes nothing. It leaves
nothing behind: without it the other turns of a session show the same. The status of a turn says what
is in the report: issues, a failure, or neither.

Headlines:
* `Record.Consistent`: the status and the report of a turn fit together.
* `Thins`: some of the turns that execute nothing are left out.
* `Session.transcript_congr`: nothing but the store and the limit matters to what a session shows.
* **`Session.idle_turns_leave_no_trace`**: the status fits the report, and such turns can be left out.
-/

namespace LoxKit

/-! ## The status and the report -/

/-- The status of a turn fits its report. A turn that was allowed too few steps has not ended. -/
structure Record.Consistent (r : Record) : Prop where
  dataError : r.status.code = 65 ↔ r.notices ≠ []
  softwareError : r.status ≠ .unfinished → (r.status.code = 70 ↔ r.failure ≠ none)
  ok : r.status ≠ .unfinished → (r.status.code = 0 ↔ r.notices = [] ∧ r.failure = none)

/-- The ways in which a turn ends. It is not broken if its store is sound. -/
inductive Turn.EndsAs (t : Turn) : Ending → Prop
  | issues {s : Store} (hi : Report.issuesOf t.text ≠ []) : EndsAs t ⟨.dataError, s, none⟩
  | ok {s : Store} (hi : Report.issuesOf t.text = []) : EndsAs t ⟨.ok, s, none⟩
  | failed {s : Store} {f : Failure} (hi : Report.issuesOf t.text = []) :
      EndsAs t ⟨.softwareError, s, some f⟩
  | unfinished {s : Store} (hi : Report.issuesOf t.text = []) : EndsAs t ⟨.unfinished, s, none⟩

section Sound

variable {h : Host} {session : Session}

/-- A store in which every function can be called. Nothing is asked of the moments that led to it. -/
abbrev Healthy (s : Store) : Prop :=
  StoreSound (fun _ => True) s

/-- What the run of a clean text keeps, and what is true of the moments in which its statements
begin. -/
theorem Healthy.runProgram_meets {s : Store} (hs : Healthy s) {text : String}
    (hclean : Report.issuesOf text = []) (fuel : Nat) :
    Meets (fun _ => True) s (runProgram h fuel (programOf text) s) (fun _ _ => True) ∧
      ∀ m, Begins h fuel (programOf text) s m → Good (fun _ => True) m := by
  obtain ⟨console, outcome, hcompiled, hready, -⟩ :=
    (⟨.empty false none, s⟩ : Session).compiled_eq text
  obtain rfl := hready hclean
  exact turn_meets (fun _ _ => trivial) hs hcompiled fuel fun _ _ => trivial

/-- What a turn leaves is sound, and it is not broken. -/
theorem Turn.ending_sound (t : Turn) {s : Store} (hs : Healthy s) :
    Healthy (t.ending h s).store ∧ t.EndsAs (t.ending h s) := by
  unfold Turn.ending
  by_cases hissues : Report.issuesOf t.text = []
  · rw [if_neg (not_not.mpr hissues)]
    split
    · exact ⟨hs, .ok hissues⟩
    · have hmeets := (hs.runProgram_meets (h := h) hissues t.fuel).1
      cases ho : runProgram h t.fuel (programOf t.text) s with
      | done u s' =>
        rw [ho] at hmeets
        exact ⟨hmeets.2.1, .ok hissues⟩
      | failed error line s' =>
        rw [ho] at hmeets
        exact ⟨hmeets.2, .failed hissues⟩
      | broken breakage =>
        rw [ho] at hmeets
        exact hmeets.elim
      | unfinished => exact ⟨hs, .unfinished hissues⟩
  · rw [if_pos hissues]
    exact ⟨hs, .issues hissues⟩

/-- A turn shows a status that fits its report, and leaves a sound store. -/
theorem Session.turn_consistent (t : Turn) (hs : Healthy session.store) :
    (session.turn h t).1.Consistent ∧ Healthy (session.turn h t).2.store := by
  obtain ⟨hrecord, hstore, -⟩ := session.turn_eq h t
  obtain ⟨hsound, hends⟩ := t.ending_sound (h := h) hs
  have hnotices : Report.admitted session.report.limit (noticesOf t.text) = [] ↔
      Report.issuesOf t.text = [] := by
    rw [Report.admitted_eq_nil, noticesOf, List.map_eq_nil_iff]
  rw [hrecord, hstore]
  refine ⟨?_, hsound.congr rfl rfl⟩
  generalize t.ending h session.store = e at hends
  cases hends with
  | issues hi => constructor <;> simp [Status.code, hnotices, hi]
  | ok hi => constructor <;> simp [Status.code, hnotices, hi]
  | failed hi => constructor <;> simp [Status.code, hnotices, hi]
  | unfinished hi => constructor <;> simp [Status.code, hnotices, hi]

theorem Session.records_consistent {turns : List Turn} : ∀ {session : Session},
    Healthy session.store → ∀ r ∈ session.records h turns, r.Consistent := by
  induction turns with
  | nil => exact fun _ _ hr => absurd hr List.not_mem_nil
  | cons t turns ih =>
    intro session hs r hr
    obtain ⟨hfirst, hnext⟩ := session.turn_consistent (h := h) t hs
    rcases List.mem_cons.mp hr with rfl | hr
    · exact hfirst
    · exact ih hnext r hr

end Sound

/-! ## Turns that are left out -/

/-- The turns of a session, each with what it shows. -/
def Session.transcript (h : Host) (session : Session) (turns : List Turn) : List (Turn × Record) :=
  turns.zip (session.records h turns)

theorem Session.transcript_cons (h : Host) (session : Session) (t : Turn) (turns : List Turn) :
    session.transcript h (t :: turns) =
      (t, (session.turn h t).1) :: (session.turn h t).2.transcript h turns := rfl

/-- A turn in which nothing is executed: its text has issues, or it is only checked. -/
def Idle (entry : Turn × Record) : Prop :=
  entry.1.checkOnly = true ∨ entry.2.status.code = 65

/-- What is left of a transcript when some of the turns that execute nothing are left out. -/
inductive Thins : List (Turn × Record) → List (Turn × Record) → Prop
  | nil : Thins [] []
  | keep {entry : Turn × Record} {entries kept : List (Turn × Record)} (hk : Thins entries kept) :
      Thins (entry :: entries) (entry :: kept)
  | leaveOut {entry : Turn × Record} {entries kept : List (Turn × Record)} (hi : Idle entry)
      (hk : Thins entries kept) : Thins (entry :: entries) kept

section Idle

variable {h : Host} {session session' : Session} {t : Turn}

/-- Nothing but the store and the limit matters to what a session shows. -/
theorem Session.transcript_congr {turns : List Turn} : ∀ {session session' : Session},
    session'.store = session.store → session'.report.limit = session.report.limit →
      session'.transcript h turns = session.transcript h turns := by
  induction turns with
  | nil => exact fun _ _ => rfl
  | cons t turns ih =>
    intro session session' hs hl
    obtain ⟨hrecord, hstore, hlimit⟩ := session.turn_eq h t
    obtain ⟨hrecord', hstore', hlimit'⟩ := session'.turn_eq h t
    have hfirst : (session'.turn h t).1 = (session.turn h t).1 := by rw [hrecord', hrecord, hs, hl]
    have hrest : (session'.turn h t).2.transcript h turns = (session.turn h t).2.transcript h turns :=
      ih (by rw [hstore', hstore, hs]) (by rw [hlimit', hlimit, hl])
    rw [transcript_cons, transcript_cons, hfirst, hrest]

/-- A turn that executes nothing ends in the store in which it begins. -/
theorem Turn.ending_of_idle (s : Store)
    (hi : t.checkOnly = true ∨ (t.ending h s).status.code = 65) : (t.ending h s).store = s := by
  unfold Turn.ending at hi ⊢
  split
  · rfl
  · split
    · rfl
    · rename_i hissues hrun
      rw [if_neg hissues, if_neg hrun] at hi
      cases ho : runProgram h t.fuel (programOf t.text) s with
      | broken | unfinished => rfl
      | done | failed =>
        rw [ho] at hi
        exact absurd hi (by simp [hrun, Status.code])

/-- Behind a turn that executes nothing a session goes on as without it. -/
theorem Session.transcript_idle (ho : session.store.output = "")
    (hi : Idle (t, (session.turn h t).1)) (turns : List Turn) :
    (session.turn h t).2.transcript h turns = session.transcript h turns := by
  obtain ⟨hrecord, hstore, hlimit⟩ := session.turn_eq h t
  unfold Idle at hi
  rw [hrecord] at hi
  refine transcript_congr ?_ hlimit
  rw [hstore, Turn.ending_of_idle session.store hi, ← ho]

/-- What is kept of a transcript is the transcript of the turns that are kept. -/
theorem Session.transcript_thins {turns : List Turn} : ∀ {session : Session} {kept},
    session.store.output = "" → Thins (session.transcript h turns) kept →
      session.transcript h (kept.map Prod.fst) = kept := by
  induction turns with
  | nil =>
    intro session kept _ hk
    cases hk
    rfl
  | cons t turns ih =>
    intro session kept ho hk
    have hnext : (session.turn h t).2.store.output = "" := by rw [(session.turn_eq h t).2.1]
    cases hk with
    | keep hk => rw [List.map_cons, transcript_cons, ih hnext hk]
    | leaveOut hi hk => rw [← transcript_idle ho hi, ih hnext hk]

end Idle

/-- **Turns that execute nothing leave no trace.** After each turn of a session the exit code is 65
exactly if there are issues, 70 exactly if there is a failure, and 0 exactly if there is neither. When
turns whose text has issues or is only checked are left out, the others show what they show with
them. -/
theorem Session.idle_turns_leave_no_trace (h : Host) (verbose : Bool) (limit : Option Int)
    (turns : List Turn) :
    (∀ r ∈ (Session.start verbose limit).records h turns, r.Consistent) ∧
      ∀ kept, Thins ((Session.start verbose limit).transcript h turns) kept →
        (Session.start verbose limit).transcript h (kept.map Prod.fst) = kept :=
  ⟨records_consistent (.initial _), fun _ hk => transcript_thins rfl hk⟩

/-- A function is declared and later called. Between the two a text has an issue, and another is only
checked. -/
def interruptedTurns : List Turn :=
  [⟨"fun f()\x7b\x7d", false, 9⟩, ⟨"@", false, 9⟩, ⟨"f();", true, 9⟩, ⟨"f();", false, 9⟩]

/-- Without the two turns in between, declaration and call show the same. -/
theorem leave_no_trace_interrupted : ∃ first last : Record,
    first ∈ (Session.start false none).records ⟨fun _ => 0, 1000⟩ interruptedTurns ∧
      first.Consistent ∧
      Thins ((Session.start false none).transcript ⟨fun _ => 0, 1000⟩ interruptedTurns)
        [(⟨"fun f()\x7b\x7d", false, 9⟩, first), (⟨"f();", false, 9⟩, last)] ∧
      (Session.start false none).transcript ⟨fun _ => 0, 1000⟩
          [⟨"fun f()\x7b\x7d", false, 9⟩, ⟨"f();", false, 9⟩] =
        [(⟨"fun f()\x7b\x7d", false, 9⟩, first), (⟨"f();", false, 9⟩, last)] := by
  have hissue : Report.issuesOf "@" ≠ [] := by decide +kernel
  have hidle : ∀ session : Session,
      Idle (⟨"@", false, 9⟩, (session.turn ⟨fun _ => 0, 1000⟩ ⟨"@", false, 9⟩).1) := by
    intro session
    refine Or.inr ?_
    rw [(session.turn_eq _ _).1, Turn.ending, if_pos hissue]
    rfl
  have hthins : Thins
      ((Session.start false none).transcript ⟨fun _ => 0, 1000⟩ interruptedTurns) _ :=
    .keep (.leaveOut (hidle _) (.leaveOut (Or.inl rfl) (.keep .nil)))
  obtain ⟨hconsistent, hkept⟩ :=
    Session.idle_turns_leave_no_trace ⟨fun _ => 0, 1000⟩ false none interruptedTurns
  exact ⟨_, _, List.mem_cons_self, hconsistent _ List.mem_cons_self, hthins, hkept _ hthins⟩

end LoxKit
