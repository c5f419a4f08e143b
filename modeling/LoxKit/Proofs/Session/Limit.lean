import LoxKit.Proofs.Session.History

/-!
# A limit on issues

A report may limit the number of its issues. The limit cuts the list of issues off and does nothing
else: the same texts run, they print the same and they fail in the same way, and of the issues of a
text the first are there, as many as the limit allows. A text with an issue is never executed.

Headlines:
* `Record`, `Session.records`: what can be seen of the turns of a session.
* `Report.noteAll_eq`: what noting issues one by one comes to, whatever the limit.
* `Report.compile_filled`: a text is ready exactly if nothing is wrong with it, whatever the limit.
* `Turn.ending`, `Session.turn_eq`: what a turn shows and leaves depends on the store alone.
* **`Session.limit_truncates`**: the records with a limit and those without.
-/

namespace LoxKit

/-! ## Records -/

/-- What can be seen of a turn. -/
structure Record where
  status : Status
  /-- What was printed in the turn. -/
  output : String
  /-- The issues with the text, each with its picture. -/
  notices : List Notice
  failure : Option Failure
  deriving DecidableEq

namespace Session

/-- Takes a turn. What it printed is taken away. -/
def turn (session : Session) (h : Host) (t : Turn) : Record × Session :=
  let (after, status) := session.run h t.fuel t.text t.checkOnly
  let (output, next) := after.takeOutput
  (⟨status, output, after.report.notices, after.report.failure⟩, next)

/-- What can be seen of turns that are taken one after the other. -/
def records (h : Host) (session : Session) : List Turn → List Record
  | [] => []
  | t :: turns => (session.turn h t).1 :: records h (session.turn h t).2 turns

end Session

/-! ## Reports with a limit -/

namespace Report

/-- How many issues a limit lets through, if it is one. A limit of zero is none, and one issue is
always let through. -/
def room : Option Int → Option Nat
  | none => none
  | some k => if k = 0 then none else some (if 0 < k then k.toNat else 1)

/-- What a limit lets through of a list. -/
def admitted {α : Type} (limit : Option Int) (as : List α) : List α :=
  (room limit).elim as as.take

/-- Whether a limit is reached by a number of issues. -/
def reached (limit : Option Int) (count : Nat) : Bool :=
  (room limit).any (· ≤ count)

/-- The notice of an issue with a text. -/
def noticeOf (source : Option (List Char)) (i : Issue) : Notice :=
  ⟨i, Picture.draw? source ((source.map List.length).getD 0) i.pos.offset i.width ""⟩

section Room

variable {limit : Option Int} {α : Type}

theorem room_pos {n : Nat} (h : room limit = some n) : 0 < n := by
  unfold room at h
  split at h
  · exact absurd h (by simp)
  · split at h
    · exact absurd h (by simp)
    · cases h
      split <;> omega

theorem admitted_of_not_reached {as : List α} (h : reached limit as.length = false) :
    admitted limit as = as := by
  unfold reached at h
  unfold admitted
  cases hn : room limit with
  | none => rfl
  | some n =>
    rw [hn, Option.any_some, decide_eq_false_iff_not, Nat.not_le] at h
    exact List.take_of_length_le (Nat.le_of_lt h)

/-- Before a limit is reached, one more is let through. -/
theorem admitted_concat {as : List α} (h : reached limit as.length = false) (a : α) :
    admitted limit (as ++ [a]) = as ++ [a] := by
  unfold reached at h
  unfold admitted
  cases hn : room limit with
  | none => rfl
  | some n =>
    rw [hn, Option.any_some, decide_eq_false_iff_not, Nat.not_le] at h
    refine List.take_of_length_le ?_
    rw [List.length_append, List.length_singleton]
    exact h

/-- When a limit is reached, nothing more is let through. -/
theorem admitted_append_of_reached {as : List α} (h : reached limit as.length = true) (bs : List α) :
    admitted limit (as ++ bs) = admitted limit as := by
  unfold reached at h
  unfold admitted
  cases hn : room limit with
  | none =>
    rw [hn] at h
    exact absurd h (by simp)
  | some n =>
    rw [hn, Option.any_some, decide_eq_true_iff] at h
    exact List.take_append_of_le_length h

theorem reached_append_of_reached {as : List α} (h : reached limit as.length = true) (bs : List α) :
    reached limit (as ++ bs).length = true := by
  unfold reached at h ⊢
  cases hn : room limit with
  | none =>
    rw [hn] at h
    exact absurd h (by simp)
  | some n =>
    rw [hn, Option.any_some, decide_eq_true_iff] at h
    rw [Option.any_some, decide_eq_true_iff, List.length_append]
    exact Nat.le_add_right_of_le h

theorem admitted_eq_nil {as : List α} : admitted limit as = [] ↔ as = [] := by
  unfold admitted
  cases hn : room limit with
  | none => exact Iff.rfl
  | some n =>
    rw [Option.elim_some, List.take_eq_nil_iff]
    exact or_iff_right (Nat.ne_of_gt (room_pos hn))

theorem not_reached_zero : reached limit 0 = false := by
  unfold reached
  cases hn : room limit with
  | none => rfl
  | some n => simpa using Nat.ne_of_gt (room_pos hn)

end Room

theorem full_iff_reached {r : Report} (h : r.notices ≠ []) :
    r.full = reached r.limit r.notices.length := by
  have hpos := List.length_pos_iff.mpr h
  unfold full reached room
  cases r.limit with
  | none => rfl
  | some k =>
    by_cases hk : k = 0
    · simp [hk]
    · by_cases hk' : 0 < k
      · simp [hk, hk']
      · have hle : k ≤ r.notices.length := by omega
        have hone : 1 ≤ r.notices.length := hpos
        simp [hk, hk', hle, hone]

theorem note_eq (r : Report) (i : Issue) :
    r.note i = { r with notices := r.notices ++ [noticeOf r.source i] } := rfl

/-- What noting issues one by one comes to: they are let through until the limit is reached. -/
theorem noteAll_eq (is : List Issue) :
    ∀ {r : Report}, reached r.limit r.notices.length = false →
      r.noteAll is = ({ r with notices := admitted r.limit (r.notices ++ is.map (noticeOf r.source)) },
        reached r.limit (r.notices ++ is.map (noticeOf r.source)).length) := by
  induction is with
  | nil =>
    intro r h
    rw [noteAll, List.map_nil, List.append_nil, admitted_of_not_reached h, h]
  | cons i is ih =>
    intro r h
    have happend : r.notices ++ (i :: is).map (noticeOf r.source) =
        (r.note i).notices ++ is.map (noticeOf r.source) := by
      rw [note_eq, List.map_cons, List.append_assoc, List.singleton_append]
    have hfull : (r.note i).full = reached r.limit (r.note i).notices.length :=
      full_iff_reached (by simp [note_eq])
    rw [noteAll, happend, hfull]
    cases hreached : reached r.limit (r.note i).notices.length with
    | false => exact ih hreached
    | true =>
      rw [if_pos rfl, admitted_append_of_reached hreached, reached_append_of_reached hreached,
        note_eq, admitted_concat h]

/-- A report in which issues were noted since it was empty, as far as the limit lets them through. -/
def filled (r : Report) (is : List Issue) (console : String) : Report :=
  { r with notices := admitted r.limit (is.map (noticeOf r.source)), console }

section Filled

variable (r : Report) (is : List Issue)

theorem ok_filled (console : String) : (r.filled is console).ok = is.isEmpty := by
  unfold ok filled
  rw [Bool.eq_iff_iff, List.isEmpty_iff, List.isEmpty_iff, admitted_eq_nil, List.map_eq_nil_iff]

theorem info_filled (console line : String) :
    ∃ console', (r.filled is console).info line = r.filled is console' := by
  unfold info
  split
  · exact ⟨_, rfl⟩
  · exact ⟨_, rfl⟩

variable {r is}

theorem filled_append_of_reached (h : reached r.limit is.length = true) (js : List Issue)
    (console : String) : r.filled (is ++ js) console = r.filled is console := by
  unfold filled
  rw [List.map_append, admitted_append_of_reached (by rwa [List.length_map])]

/-- As long as the limit is not reached, issues are noted behind those that are there. -/
theorem noteAll_filled (h : reached r.limit is.length = false) (js : List Issue)
    (console : String) :
    (r.filled is console).noteAll js =
      (r.filled (is ++ js) console, reached r.limit (is ++ js).length) := by
  have hall : admitted r.limit (is.map (noticeOf r.source)) = is.map (noticeOf r.source) :=
    admitted_of_not_reached (by rwa [List.length_map])
  have hreached : reached (r.filled is console).limit (r.filled is console).notices.length = false := by
    rw [filled, hall, List.length_map, h]
  rw [noteAll_eq js hreached]
  simp only [filled, hall, List.map_append, List.length_append, List.length_map]

end Filled

/-! ## Compiling -/

/-- What is wrong with a text in itself, before its references are linked. -/
def issuesOfReading (text : String) : List Issue :=
  (Tokens.ofText text).issues ++ (Grammar.parse (Tokens.ofText text)).issues

/-- What is wrong with a text: the issues found in reading it or, if there are none, those found in
linking it. -/
def issuesOf (text : String) : List Issue :=
  if issuesOfReading text = [] then
    (linkProgram (Grammar.parse (Tokens.ofText text)).statements).issues
  else issuesOfReading text

section Compiling

variable (r : Report) (text console : String)

/-- What reading a text comes to. -/
theorem readText_filled :
    ∃ console', (r.filled [] console).readText text =
      (r.filled (issuesOfReading text) console',
        if reached r.limit (issuesOfReading text).length = true then none
        else some (Grammar.parse (Tokens.ofText text)).statements) := by
  have hfirst : (r.filled [] console).noteAll (Tokens.ofText text).issues =
      (r.filled (Tokens.ofText text).issues console,
        reached r.limit (Tokens.ofText text).issues.length) := noteAll_filled not_reached_zero _ _
  unfold readText
  simp only [hfirst]
  cases hlexical : reached r.limit (Tokens.ofText text).issues.length with
  | true =>
    have hreached : reached r.limit (issuesOfReading text).length = true :=
      reached_append_of_reached hlexical _
    have hfilled : r.filled (issuesOfReading text) console =
        r.filled (Tokens.ofText text).issues console := filled_append_of_reached hlexical _ _
    exact ⟨console, by rw [hfilled, hreached, if_pos rfl]⟩
  | false =>
    obtain ⟨console', hinfo⟩ := r.info_filled (Tokens.ofText text).issues console
      ("Scanned " ++ toString (Tokens.ofText text).all.length ++ " tokens")
    refine ⟨console', ?_⟩
    simp only [hinfo, noteAll_filled hlexical]
    rw [← issuesOfReading]
    cases reached r.limit (issuesOfReading text).length <;> rfl

/-- What compiling a text comes to: it is ready exactly if nothing is wrong with it. -/
theorem compile_filled :
    ∃ console' outcome, (r.filled [] console).compile text =
        (r.filled (issuesOf text) console', outcome) ∧
      (issuesOf text = [] → outcome =
        .ready (linkProgram (Grammar.parse (Tokens.ofText text)).statements).tree) ∧
      (issuesOf text ≠ [] → ∀ program, outcome ≠ .ready program) := by
  obtain ⟨console₁, hread⟩ := r.readText_filled text console
  unfold compile
  rw [hread]
  by_cases hreading : issuesOfReading text = []
  · have hissues : issuesOf text =
        (linkProgram (Grammar.parse (Tokens.ofText text)).statements).issues := if_pos hreading
    obtain ⟨console₂, hinfo⟩ := r.info_filled [] console₁
      ("Parsed " ++ toString (Grammar.parse (Tokens.ofText text)).statements.length ++
        " top-level statements")
    have hlink : (r.filled [] console₂).noteAll (issuesOf text) =
        (r.filled (issuesOf text) console₂, reached r.limit (issuesOf text).length) :=
      noteAll_filled not_reached_zero _ _
    simp only [hreading, List.length_nil, not_reached_zero, Bool.false_eq_true, if_false, ok_filled,
      List.isEmpty_nil, Bool.not_true, hinfo, link, ← hissues, hlink]
    by_cases hnone : issuesOf text = []
    · obtain ⟨console₃, hready⟩ := r.info_filled [] console₂
        ("Resolved " ++ toString (Entry.locals (linkProgram
          (Grammar.parse (Tokens.ofText text)).statements).tree).length ++ " local references")
      simp only [hnone, List.length_nil, not_reached_zero, ok_filled, List.isEmpty_nil,
        Bool.not_true, Bool.false_eq_true, if_false, hready]
      exact ⟨console₃, _, rfl, fun _ => rfl, fun h => absurd rfl h⟩
    · cases reached r.limit (issuesOf text).length with
      | true => exact ⟨console₂, _, rfl, fun h => absurd h hnone, fun _ _ => by simp⟩
      | false =>
        simp only [ok_filled, List.isEmpty_eq_false_iff.mpr hnone, Bool.not_false, if_true]
        exact ⟨console₂, _, rfl, fun h => absurd h hnone, fun _ _ => by simp⟩
  · have hissues : issuesOf text = issuesOfReading text := if_neg hreading
    rw [hissues]
    cases reached r.limit (issuesOfReading text).length with
    | true => exact ⟨console₁, _, rfl, fun h => absurd h hreading, fun _ _ => by simp⟩
    | false =>
      simp only [Bool.false_eq_true, if_false, ok_filled, List.isEmpty_eq_false_iff.mpr hreading,
        Bool.not_false, if_true]
      exact ⟨console₁, _, rfl, fun h => absurd h hreading, fun _ _ => by simp⟩

end Compiling

end Report

/-! ## Turns -/

/-- The program of a text in which nothing is wrong. -/
def programOf (text : String) : List (Stmt Link) :=
  (linkProgram (Grammar.parse (Tokens.ofText text)).statements).tree

/-- How a turn ends: its status, the store that it leaves, and why it failed. -/
structure Ending where
  status : Status
  store : Store
  failure : Option Failure

/-- How a turn ends that begins in a store. Nothing but the store matters. -/
def Turn.ending (h : Host) (t : Turn) (s : Store) : Ending :=
  if Report.issuesOf t.text ≠ [] then ⟨.dataError, s, none⟩
  else if t.checkOnly = true then ⟨.ok, s, none⟩
  else match runProgram h t.fuel (programOf t.text) s with
    | .done () s' => ⟨.ok, s', none⟩
    | .failed error line s' => ⟨.softwareError, s', some ⟨line, error.message⟩⟩
    | .broken breakage => ⟨.broken breakage, s, none⟩
    | .unfinished => ⟨.unfinished, s, none⟩

/-- The notices of a text, without a limit. -/
def noticesOf (text : String) : List Notice :=
  (Report.issuesOf text).map (Report.noticeOf (some text.toList))

namespace Session

/-- The report after compiling a text, with whatever was written to the console. -/
def reported (session : Session) (text console : String) : Report :=
  { session.report with
    source := some text.toList
    notices := Report.admitted session.report.limit (noticesOf text)
    failure := none
    console }

theorem compiled_eq (session : Session) (text : String) :
    ∃ console outcome, session.compiled text = (session.reported text console, outcome) ∧
      (Report.issuesOf text = [] → outcome = .ready (programOf text)) ∧
      (Report.issuesOf text ≠ [] → ∀ program, outcome ≠ .ready program) := by
  have hempty : session.report.reset.setSource text.toList =
      (session.report.reset.setSource text.toList).filled [] session.report.console := by
    unfold Report.filled
    rw [List.map_nil, Report.admitted_eq_nil.mpr rfl]
    rfl
  unfold compiled
  rw [hempty]
  exact (session.report.reset.setSource text.toList).compile_filled text session.report.console

/-- A text with an issue is not executed. -/
theorem run_of_issues (session : Session) (h : Host) (fuel : Nat) {text : String}
    (hissues : Report.issuesOf text ≠ []) (checkOnly : Bool) :
    ∃ console, session.run h fuel text checkOnly =
      (⟨session.reported text console, session.store⟩, .dataError) := by
  obtain ⟨console, outcome, hcompiled, -, hready⟩ := session.compiled_eq text
  unfold compiled at hcompiled
  unfold run
  cases outcome with
  | tooManyIssues => exact ⟨console, by simp only [hcompiled]⟩
  | stopped phase =>
    simp only [hcompiled]
    unfold Report.info
    split
    · exact ⟨_, rfl⟩
    · exact ⟨_, rfl⟩
  | ready program => exact absurd rfl (hready hissues program)

theorem run_of_clean (session : Session) (h : Host) (fuel : Nat) {text : String}
    (hclean : Report.issuesOf text = []) (checkOnly : Bool) :
    ∃ console, session.run h fuel text checkOnly =
      if checkOnly = true then (⟨session.reported text console, session.store⟩, .ok)
      else execute ⟨session.reported text console, session.store⟩ h fuel (programOf text) := by
  obtain ⟨console, outcome, hcompiled, hready, -⟩ := session.compiled_eq text
  obtain rfl := hready hclean
  unfold compiled at hcompiled
  exact ⟨console, by simp only [run, hcompiled]⟩

/-- What a turn shows and what it leaves. -/
theorem turn_eq (session : Session) (h : Host) (t : Turn) :
    (session.turn h t).1 = ⟨(t.ending h session.store).status,
        (t.ending h session.store).store.output,
        Report.admitted session.report.limit (noticesOf t.text), (t.ending h session.store).failure⟩ ∧
      (session.turn h t).2.store = { (t.ending h session.store).store with output := "" } ∧
      (session.turn h t).2.report.limit = session.report.limit := by
  unfold turn Turn.ending
  by_cases hissues : Report.issuesOf t.text = []
  · obtain ⟨console, hrun⟩ := session.run_of_clean h t.fuel hissues t.checkOnly
    rw [hrun, if_neg (not_not.mpr hissues)]
    cases t.checkOnly with
    | true => exact ⟨rfl, rfl, rfl⟩
    | false =>
      simp only [Bool.false_eq_true, if_false, execute]
      cases runProgram h t.fuel (programOf t.text) session.store <;> exact ⟨rfl, rfl, rfl⟩
  · obtain ⟨console, hrun⟩ := session.run_of_issues h t.fuel hissues t.checkOnly
    rw [hrun, if_pos hissues]
    exact ⟨rfl, rfl, rfl⟩

end Session

/-- A record of which only so many notices are kept. -/
def Record.truncate (n : Nat) (r : Record) : Record :=
  { r with notices := r.notices.take n }

/-- Two sessions with the same store, of which only one has a limit. -/
theorem Session.records_limited (h : Host) {n : Nat} (turns : List Turn) :
    ∀ {session session' : Session}, session'.store = session.store →
      Report.room session.report.limit = none → Report.room session'.report.limit = some n →
      session'.records h turns = (session.records h turns).map (Record.truncate n) := by
  induction turns with
  | nil => exact fun _ _ _ => rfl
  | cons t turns ih =>
    intro session session' hs hfree hroom
    obtain ⟨hrecord, hstore, hlimit⟩ := session.turn_eq h t
    obtain ⟨hrecord', hstore', hlimit'⟩ := session'.turn_eq h t
    have hrest : (session'.turn h t).2.records h turns =
        ((session.turn h t).2.records h turns).map (Record.truncate n) := by
      refine ih ?_ (by rwa [hlimit]) (by rwa [hlimit'])
      rw [hstore, hstore', hs]
    have hfirst : (session'.turn h t).1 = (session.turn h t).1.truncate n := by
      rw [hrecord, hrecord', hs]
      simp only [Record.truncate, Report.admitted, hfree, hroom, Option.elim_none, Option.elim_some]
    rw [records, records, List.map_cons, hfirst, hrest]

/-- **A limit only truncates the list of issues.** With a limit a session shows in each of its turns
what it shows without one, but of the issues only the first: as many as the limit says if it is
positive, and one if it is negative. A text in which an issue is found is not executed. -/
theorem Session.limit_truncates (h : Host) (verbose : Bool) {k : Int} (hk : k ≠ 0)
    (turns : List Turn) :
    (Session.start verbose (some k)).records h turns =
        ((Session.start verbose none).records h turns).map
          (Record.truncate (if 0 < k then k.toNat else 1)) ∧
      ∀ (session : Session) (t : Turn),
        (session.run h t.fuel t.text t.checkOnly).1.report.notices ≠ [] →
        (session.run h t.fuel t.text t.checkOnly).1.store = session.store ∧
          (session.run h t.fuel t.text t.checkOnly).2 = .dataError := by
  refine ⟨records_limited h turns rfl rfl (if_neg hk), fun session t hnotices => ?_⟩
  have hissues : Report.issuesOf t.text ≠ [] := by
    intro hclean
    have hrecord : (session.run h t.fuel t.text t.checkOnly).1.report.notices =
        Report.admitted session.report.limit (noticesOf t.text) :=
      congrArg Record.notices (session.turn_eq h t).1
    rw [noticesOf, hclean, List.map_nil, Report.admitted_eq_nil.mpr rfl] at hrecord
    exact hnotices hrecord
  obtain ⟨console, hrun⟩ := session.run_of_issues h t.fuel hissues t.checkOnly
  rw [hrun]
  exact ⟨rfl, rfl⟩

/-- Of the two issues of `@@print 1;`, which is not executed, a limit of one keeps the first. -/
theorem limit_truncates_twoIssues :
    (1 : Int) ≠ 0 ∧
      ((Session.start false (some 1)).records ⟨fun _ => 0, 1000⟩ [⟨"@@print 1;", false, 9⟩]).map
          (fun r => (r.status, r.output, r.notices.map Notice.issue)) =
        [(.dataError, "", [.lexical ⟨1, 0⟩ (.unexpectedCharacter '@')])] := by
  refine ⟨by decide, ?_⟩
  rw [(Session.limit_truncates ⟨fun _ => 0, 1000⟩ false (by decide : (1 : Int) ≠ 0) _).1]
  decide +kernel

end LoxKit
