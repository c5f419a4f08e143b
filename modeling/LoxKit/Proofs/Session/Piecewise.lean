import LoxKit.Proofs.Relocation.Evaluation
import LoxKit.Proofs.Relocation.Placement
import LoxKit.Proofs.Session.Safety

/-!
# Piece by piece

Texts that run one after the other in a session do what they do when they are joined and run at
once. Only an error may come to stand on another line: on that of the same token further down.

An error shows a line and not a token. Which token it is about is seen when all tokens are moved
about: the line of the error is that of one token wherever the tokens are.

Headlines:
* `Portion`, `recordsFrom`: programs that run one after the other, and what they show.
* `FailsAt`: the token about which texts fail, one by one and at once.
* `Sums`: what the programs come to when they run at once, in terms of what they show apart.
* **`Session.piecewise`**: piece by piece and at once.
-/

namespace LoxKit

open Relocation

/-! ## Programs one after the other -/

/-- A program and the steps that it is allowed. -/
structure Portion where
  fuel : Nat
  program : List (Stmt Link)

/-- A program with its places moved. -/
def Portion.move (f : Pos → Pos) (q : Portion) : Portion :=
  { q with program := q.program.map (Stmt.move f) }

/-- The program of a turn. -/
def Turn.portion (t : Turn) : Portion :=
  ⟨t.fuel, programOf t.text⟩

/-- How a run ends that begins in a store and comes to an outcome. -/
def Ending.of (s : Store) : Outcome Unit → Ending
  | .done () s' => ⟨.ok, s', none⟩
  | .failed error line s' => ⟨.softwareError, s', some ⟨line, error.message⟩⟩
  | .broken breakage => ⟨.broken breakage, s, none⟩
  | .unfinished => ⟨.unfinished, s, none⟩

/-- What an ending shows of a program that has no issues. -/
def Ending.record (e : Ending) : Record :=
  ⟨e.status, e.store.output, [], e.failure⟩

/-- What programs show that run one after the other. What each has printed is taken away. -/
def recordsFrom (h : Host) (s : Store) : List Portion → List Record
  | [] => []
  | q :: qs =>
    let ending := Ending.of s (runProgram h q.fuel q.program s)
    ending.record :: recordsFrom h { ending.store with output := "" } qs

section Turns

variable {h : Host}

theorem Turn.ending_of_clean {t : Turn} (hclean : Report.issuesOf t.text = [])
    (hrun : t.checkOnly = false) (s : Store) :
    t.ending h s = .of s (runProgram h t.fuel (programOf t.text) s) := by
  rw [Turn.ending, if_neg (not_not.mpr hclean), if_neg (by simp [hrun])]
  cases runProgram h t.fuel (programOf t.text) s <;> rfl

/-- A turn in which a clean text is run. -/
theorem Session.turn_of_clean (session : Session) {t : Turn} (hclean : Report.issuesOf t.text = [])
    (hrun : t.checkOnly = false) {ending : Ending}
    (hending : Ending.of session.store (runProgram h t.fuel (programOf t.text) session.store) =
      ending) :
    (session.turn h t).1 = ending.record ∧
      (session.turn h t).2.store = { ending.store with output := "" } := by
  have hnotices : Report.admitted session.report.limit (noticesOf t.text) = [] := by
    rw [noticesOf, hclean, Report.admitted_eq_nil, List.map_nil]
  obtain ⟨hrecord, hstore, -⟩ := session.turn_eq h t
  rw [Turn.ending_of_clean hclean hrun, hending] at hrecord hstore
  exact ⟨by rw [hrecord, hnotices]; rfl, hstore⟩

/-- What turns show in which clean texts are run. -/
theorem Session.records_of_clean {turns : List Turn} : ∀ {session : Session},
    (∀ t ∈ turns, t.checkOnly = false ∧ Report.issuesOf t.text = []) →
    session.records h turns = recordsFrom h session.store (turns.map Turn.portion) := by
  induction turns with
  | nil => exact fun _ => rfl
  | cons t turns ih =>
    intro session hturns
    rw [List.forall_mem_cons] at hturns
    obtain ⟨hrecord, hstore⟩ := session.turn_of_clean (h := h) hturns.1.2 hturns.1.1 rfl
    rw [Session.records, ih hturns.2, hrecord, hstore]
    rfl

end Turns

/-! ## Programs that are moved -/

/-- A failure on another line. -/
def Failure.move (line : Nat → Nat) (f : Failure) : Failure :=
  { f with line := line f.line }

/-- A record whose failure is on another line. -/
def Record.move (line : Nat → Nat) (r : Record) : Record :=
  { r with failure := r.failure.map (Failure.move line) }

/-- A relocation behind more text that was printed. -/
def Relocation.behind (R : Relocation) (output : String) : Relocation :=
  { R with before := R.before ++ output }

/-- What was printed may be kept apart from the store. -/
theorem Relocation.store_behind (R : Relocation) (s : Store) :
    (R.behind s.output).store { s with output := "" } = R.store s := by
  simp only [store, behind, String.append_empty]

section Moving

variable {h : Host} {fuel : Nat} {v w : Store} {R : Relocation}

theorem Ending.of_outcome (s : Store) (o : Outcome Unit) :
    Ending.of (R.store s) (R.outcome id o) =
      ⟨(Ending.of s o).status, R.store (Ending.of s o).store,
        (Ending.of s o).failure.map (Failure.move R.line)⟩ := by
  cases o <;> rfl

/-- Programs that are moved show the same on other lines. -/
theorem recordsFrom_move (hR : R.before = "") (qs : List Portion) : ∀ v : Store,
    recordsFrom h (R.store v) (qs.map (Portion.move R.pos)) =
      (recordsFrom h v qs).map (Record.move R.line) := by
  have houtput : ∀ s : Store, (R.store s).output = s.output := fun s => by
    rw [store, hR, String.empty_append]
  have hstore : ∀ s : Store, { R.store s with output := "" } = R.store { s with output := "" } :=
    fun s => by simp only [store, hR, String.append_empty]
  induction qs with
  | nil => exact fun _ => rfl
  | cons q qs ih =>
    intro v
    simp only [List.map_cons, recordsFrom, Portion.move, runProgram_move, Ending.of_outcome, hstore,
      ih, Ending.record, houtput, Record.move]

/-- What programs come to that are moved and run at once. -/
def runAll (h : Host) (fuel : Nat) (qs : List Portion) (v : Store) (R : Relocation) : Outcome Unit :=
  runProgram h fuel ((qs.map (Portion.move R.pos)).flatMap Portion.program) (R.store v)

theorem runAll_cons (q : Portion) (qs : List Portion) (v : Store) (R : Relocation) :
    runAll h fuel (q :: qs) v R =
      Action.bind (fun _ => R.outcome id (runProgram h fuel q.program v))
        (fun _ => runProgram h fuel ((qs.map (Portion.move R.pos)).flatMap Portion.program))
        (R.store v) := by
  rw [runAll, List.map_cons, List.flatMap_cons, runProgram_append]
  unfold Action.bind
  rw [Portion.move, runProgram_move]

/-- Behind a program that is done, the others go on. -/
theorem runAll_cons_done {q : Portion} (hrun : runProgram h fuel q.program v = .done () w)
    (qs : List Portion) (R : Relocation) :
    runAll h fuel (q :: qs) v R = runAll h fuel qs { w with output := "" } (R.behind w.output) := by
  rw [runAll_cons, hrun, runAll, store_behind]
  rfl

end Moving

/-! ## All at once -/

/-- What programs come to when they run at once, wherever their tokens are, in terms of what they
show when they run one after the other. -/
inductive Sums (run : Relocation → Outcome Unit) (records : List Record) (last : Record) : Prop
  | done (hs : last.status = .ok) (hf : last.failure = none)
      (hrun : ∀ R, ∃ s, run R = .done () s ∧
        s.output = R.before ++ String.join (records.map Record.output))
  | failed (error : RuntimeError) (line : Nat) (hs : last.status = .softwareError)
      (hf : last.failure = some ⟨line, error.message⟩)
      (hrun : ∀ R, ∃ s, run R = .failed error (R.line line) s ∧
        s.output = R.before ++ String.join (records.map Record.output))
  | broken (breakage : Breakage) (hrun : ∀ R, run R = .broken breakage)

/-- What programs come to behind one that is done. -/
theorem Sums.behind {run run' : Relocation → Outcome Unit} {records : List Record}
    {first last : Record} (h : Sums run' records last)
    (hrun : ∀ R, run R = run' (R.behind first.output)) : Sums run (first :: records) last := by
  have houtput : ∀ R : Relocation, (R.behind first.output).before ++
      String.join (records.map Record.output) =
        R.before ++ String.join ((first :: records).map Record.output) := by
    intro R
    rw [List.map_cons, String.join_cons, ← String.append_assoc]
    rfl
  cases h with
  | done hs hf hall =>
    refine .done hs hf fun R => ?_
    obtain ⟨s, hs, ho⟩ := hall (R.behind first.output)
    exact ⟨s, (hrun R).trans hs, ho.trans (houtput R)⟩
  | failed error line hs hf hall =>
    refine .failed error line hs hf fun R => ?_
    obtain ⟨s, hs, ho⟩ := hall (R.behind first.output)
    exact ⟨s, (hrun R).trans hs, ho.trans (houtput R)⟩
  | broken breakage hall => exact .broken breakage fun R => (hrun R).trans (hall _)

/-- **Programs one after the other and at once.** -/
theorem sums_records {h : Host} {fuel : Nat} {last : Record} (qs : List Portion) : ∀ {v : Store},
    (∀ q ∈ qs, q.fuel ≤ fuel) → (recordsFrom h v qs).getLast? = some last →
    (∀ r ∈ (recordsFrom h v qs).dropLast, r.status = .ok) → last.status ≠ .unfinished →
    Sums (runAll h fuel qs v) (recordsFrom h v qs) last := by
  induction qs with
  | nil => exact fun _ hlast => absurd hlast (by simp [recordsFrom])
  | cons q qs ih =>
    intro v hfuel hlast hok hends
    rw [List.forall_mem_cons] at hfuel
    have hbelow := runProgram_below h q.program v hfuel.1
    rw [recordsFrom] at hlast hok ⊢
    generalize runProgram h q.fuel q.program v = base at hbelow hlast hok ⊢
    -- A program that does not end well is the last one.
    have hlone : (Ending.of v base).record.status ≠ .ok →
        qs = [] ∧ (Ending.of v base).record = last := by
      intro hne
      cases qs with
      | nil => exact ⟨rfl, Option.some.inj hlast⟩
      | cons q' qs => exact absurd (hok _ List.mem_cons_self) hne
    cases base with
    | done a w =>
      have hrest : Sums (runAll h fuel qs { w with output := "" })
          (recordsFrom h { w with output := "" } qs) last := by
        cases qs with
        | nil =>
          obtain rfl : (Ending.of v (.done a w)).record = last := Option.some.inj hlast
          exact .done rfl rfl fun R => ⟨_, rfl, rfl⟩
        | cons q' qs =>
          exact ih hfuel.2 hlast (fun r hr => hok r (List.mem_cons_of_mem _ hr)) hends
      exact hrest.behind fun R => runAll_cons_done (hbelow.resolve_left (by simp)).symm qs R
    | failed error line w =>
      obtain ⟨rfl, rfl⟩ := hlone (by simp [Ending.of, Ending.record])
      refine .failed error line rfl rfl fun R => ⟨R.store w, ?_, ?_⟩
      · rw [runAll_cons, ← hbelow.resolve_left (by simp)]
        rfl
      · show R.before ++ w.output = R.before ++ String.join [w.output]
        rw [String.join_cons, String.join_nil, String.append_empty]
    | broken breakage =>
      refine .broken breakage fun R => ?_
      rw [runAll_cons, ← hbelow.resolve_left (by simp)]
      rfl
    | unfinished =>
      obtain ⟨-, rfl⟩ := hlone (by simp [Ending.of, Ending.record])
      exact absurd rfl hends

/-! ## The token about which texts fail -/

/-- The programs of turns. The places in each are moved in its own way. -/
def apart (place : Nat → Pos → Pos) (turns : List Turn) : List Portion :=
  turns.mapIdx fun k t => t.portion.move (place k)

/-- Texts fail about a token of the k-th of them, when they run one after the other and when they run
at once: wherever their tokens are, the error is on the line of this token. -/
structure FailsAt (h : Host) (fuel : Nat) (turns : List Turn) (error : RuntimeError) (k : Nat)
    (t : Token) : Prop where
  within : ∃ turn, turns[k]? = some turn ∧ t ∈ (Tokens.ofText turn.text).tokens
  oneByOne : ∀ place, ∃ last, (recordsFrom h .initial (apart place turns)).getLast? = some last ∧
    last.failure = some ⟨(place k t.pos).line, error.message⟩
  atOnce : ∀ place, ∃ s,
    runProgram h fuel ((apart place turns).flatMap Portion.program) .initial =
      .failed error (place k t.pos).line s

/-- A place that tells by its line which place of which text it stands for. -/
def label (k : Nat) (p : Pos) : Pos :=
  ⟨k.pair (p.line.pair p.offset), 0⟩

/-- The text that a line stands for. -/
def labelledText (line : Nat) : Nat :=
  line.unpair.1

/-- The place that a line stands for. -/
def labelledPos (line : Nat) : Pos :=
  ⟨line.unpair.2.unpair.1, line.unpair.2.unpair.2⟩

theorem label_injective {k k' : Nat} {p p' : Pos} (h : (label k p).line = (label k' p').line) :
    k = k' ∧ p = p' := by
  obtain ⟨line, offset⟩ := p
  obtain ⟨line', offset'⟩ := p'
  obtain ⟨hk, hp⟩ := Nat.pair_eq_pair.mp h
  obtain ⟨hline, hoffset⟩ := Nat.pair_eq_pair.mp hp
  exact ⟨hk, by rw [Pos.mk.injEq]; exact ⟨hline, hoffset⟩⟩

/-- Texts fail about tokens at no more than one place, and in one way. -/
theorem FailsAt.unique {h : Host} {fuel : Nat} {turns : List Turn} {error error' : RuntimeError}
    {k k' : Nat} {t t' : Token} (hf : FailsAt h fuel turns error k t)
    (hf' : FailsAt h fuel turns error' k' t') : error = error' ∧ k = k' ∧ t.pos = t'.pos := by
  obtain ⟨s, hs⟩ := hf.atOnce label
  obtain ⟨s', hs'⟩ := hf'.atOnce label
  rw [hs, Outcome.failed.injEq] at hs'
  obtain ⟨rfl, hline, -⟩ := hs'
  exact ⟨rfl, label_injective hline⟩

/-- Sends each label to where the place is that it stands for. -/
def Relocation.ofPlaces (place : Nat → Pos → Pos) : Relocation where
  pos p := place (labelledText p.line) (labelledPos p.line)
  line l := (place (labelledText l) (labelledPos l)).line
  line_pos _ := rfl
  before := ""

theorem Relocation.ofPlaces_label (place : Nat → Pos → Pos) (k : Nat) :
    (ofPlaces place).pos ∘ label k = place k := by
  funext p
  simp only [ofPlaces, label, labelledText, labelledPos, Function.comp_apply, Nat.unpair_pair]

theorem Relocation.ofPlaces_initial (place : Nat → Pos → Pos) :
    (ofPlaces place).store .initial = .initial :=
  store_initial (ofPlaces place)

/-! ### Programs with labels for places -/

section Labels

variable {h : Host} {fuel : Nat} {turns : List Turn} {place place' : Nat → Pos → Pos}
  (hclean : ∀ t ∈ turns, Report.issuesOf t.text = [])

theorem program_apart (place : Nat → Pos → Pos) (turns : List Turn) :
    (apart place turns).flatMap Portion.program =
      placed Stmt.move place ((turns.map Turn.text).map programOf) := by
  induction turns generalizing place with
  | nil => rfl
  | cons t turns ih =>
    have hrest := ih fun k => place (k + 1)
    unfold apart at hrest ⊢
    rw [List.mapIdx_cons, List.flatMap_cons, hrest, List.map_cons, List.map_cons, placed_cons]
    rfl

theorem apart_congr (hsame : ∀ (k : Nat) (t : Turn), turns[k]? = some t →
    (programOf t.text).map (Stmt.move (place k)) = (programOf t.text).map (Stmt.move (place' k))) :
    apart place turns = apart place' turns := by
  unfold apart
  refine List.mapIdx_eq_mapIdx_iff.mpr fun k hk => ?_
  rw [Portion.move, Portion.move, Turn.portion, hsame k _ (List.getElem?_eq_getElem hk)]

include hclean

theorem apart_id : apart (fun _ => id) turns = turns.map Turn.portion := by
  induction turns with
  | nil => rfl
  | cons t turns ih =>
    rw [List.forall_mem_cons] at hclean
    obtain ⟨stmts, hc⟩ := issuesOf_eq_nil.mp hclean.1
    have hfirst : t.portion.move id = t.portion := by
      rw [Portion.move, Turn.portion, hc.program_move_id]
    have hrest := ih hclean.2
    unfold apart at hrest ⊢
    rw [List.mapIdx_cons, hrest, hfirst, List.map_cons]

theorem apart_move (f : Pos → Pos) :
    (apart place turns).map (Portion.move f) = apart (fun k => f ∘ place k) turns := by
  induction turns generalizing place with
  | nil => rfl
  | cons t turns ih =>
    rw [List.forall_mem_cons] at hclean
    obtain ⟨stmts, hc⟩ := issuesOf_eq_nil.mp hclean.1
    have hfirst : (t.portion.move (place 0)).move f = t.portion.move (f ∘ place 0) := by
      simp only [Portion.move, Turn.portion, hc.program_move_move]
    have hrest : (apart (fun k => place (k + 1)) turns).map (Portion.move f) =
        apart (fun k => f ∘ place (k + 1)) turns := ih hclean.2
    unfold apart at hrest ⊢
    rw [List.mapIdx_cons, List.mapIdx_cons, List.map_cons, hrest, hfirst]

/-- Labels are sent to places. -/
theorem apart_label (place : Nat → Pos → Pos) :
    (apart label turns).map (Portion.move (ofPlaces place).pos) = apart place turns := by
  rw [apart_move hclean]
  simp only [ofPlaces_label]

theorem recordsFrom_label (place : Nat → Pos → Pos) :
    recordsFrom h .initial (apart place turns) =
      (recordsFrom h .initial (apart label turns)).map (Record.move (ofPlaces place).line) := by
  have hmove := recordsFrom_move (h := h) (R := ofPlaces place) rfl (apart label turns) .initial
  rwa [apart_label hclean, ofPlaces_initial] at hmove

theorem runAll_label (place : Nat → Pos → Pos) :
    runAll h fuel (apart label turns) .initial (ofPlaces place) =
      runProgram h fuel ((apart place turns).flatMap Portion.program) .initial := by
  rw [runAll, apart_label hclean, ofPlaces_initial]

/-- If programs with labels for places fail, they fail about the token that the label on the line of
the error stands for. -/
theorem exists_failsAt {error : RuntimeError} {line : Nat} {last : Record}
    (hlast : (recordsFrom h .initial (apart label turns)).getLast? = some last)
    (hfailure : last.failure = some ⟨line, error.message⟩)
    (hrun : ∀ R, ∃ s, runAll h fuel (apart label turns) .initial R = .failed error (R.line line) s) :
    ∃ t : Token, t.pos = labelledPos line ∧
      FailsAt h fuel turns error (labelledText line) t := by
  have hatOnce : ∀ place, ∃ s,
      runProgram h fuel ((apart place turns).flatMap Portion.program) .initial =
        .failed error (place (labelledText line) (labelledPos line)).line s := by
    intro place
    obtain ⟨s, hs⟩ := hrun (ofPlaces place)
    exact ⟨s, by rw [← runAll_label hclean, hs]; rfl⟩
  have honeByOne : ∀ place, ∃ last, (recordsFrom h .initial (apart place turns)).getLast? = some last ∧
      last.failure =
        some ⟨(place (labelledText line) (labelledPos line)).line, error.message⟩ := by
    intro place
    refine ⟨last.move (ofPlaces place).line, ?_, by rw [Record.move, hfailure]; rfl⟩
    rw [recordsFrom_label hclean, List.getLast?_map, hlast]
    rfl
  by_contra hno
  -- A place at which there is no token may be sent elsewhere, and nothing else changes.
  let away : Nat → Pos → Pos := fun k p =>
    if k = labelledText line ∧ p = labelledPos line then ⟨p.line + 1, p.offset⟩ else p
  have hsame : apart away turns = apart (fun _ p => p) turns := by
    refine apart_congr fun k turn hk => ?_
    obtain ⟨stmts, hc⟩ := issuesOf_eq_nil.mp (hclean turn (List.mem_of_getElem? hk))
    refine hc.program_congr fun t ht => if_neg ?_
    rintro ⟨rfl, hpos⟩
    exact hno ⟨t, hpos, ⟨turn, hk, ht⟩, hpos ▸ honeByOne, hpos ▸ hatOnce⟩
  obtain ⟨s, hs⟩ := hatOnce away
  obtain ⟨s', hs'⟩ := hatOnce fun _ p => p
  rw [hsame, hs', Outcome.failed.injEq] at hs
  have hline : (away (labelledText line) (labelledPos line)).line = (labelledPos line).line + 1 :=
    congrArg Pos.line (if_pos ⟨rfl, rfl⟩)
  omega

end Labels

/-! ## Sessions -/

/-- The first program of a session never breaks. -/
theorem runProgram_of_clean_not_broken (h : Host) {text : String}
    (hclean : Report.issuesOf text = []) (fuel : Nat) (breakage : Breakage) :
    runProgram h fuel (programOf text) .initial ≠ .broken breakage := by
  obtain ⟨console, outcome, hcompiled, hready, -⟩ := (Session.start false none).compiled_eq text
  obtain rfl := hready hclean
  exact runProgram_not_broken (h := h) [] hcompiled fuel breakage

/-- What the run of joined texts shows, in terms of the records of the turns in which the texts are
run one after the other. -/
structure RunsAs (h : Host) (fuel : Nat) (turns : List Turn) (records : List Record)
    (last whole : Record) : Prop where
  /-- Nothing is wrong with the joined texts. -/
  clean : Report.issuesOf (joined (turns.map Turn.text)) = []
  notices : whole.notices = []
  output : whole.output = String.join (records.map Record.output)
  status : whole.status = last.status
  done : last.failure = none → whole.failure = none
  /-- A failure is about one token, with one message, on the line on which this token is. -/
  failed : ∀ f, last.failure = some f → ∃ error k t, FailsAt h fuel turns error k t ∧
    f = ⟨t.pos.line, error.message⟩ ∧
    t.move (joinedPlace (turns.map Turn.text) k) ∈
      (Tokens.ofText (joined (turns.map Turn.text))).tokens ∧
    whole.failure = some ⟨(joinedPlace (turns.map Turn.text) k t.pos).line, error.message⟩

/-- What the run of joined texts shows is what their programs come to that have labels for places,
with the labels sent to where the tokens are. -/
theorem runsAs_of_sums {h : Host} {turns : List Turn} {last : Record} {fuel : Nat}
    (hclean : ∀ t ∈ turns, Report.issuesOf t.text = [])
    (hclosed : ∀ t ∈ turns, ∀ body, Piece.blockComment body false ∉ pieces t.text.toList)
    (hlast : (recordsFrom h .initial (apart label turns)).getLast? = some last)
    (hsums : Sums (runAll h fuel (apart label turns) .initial)
      (recordsFrom h .initial (apart label turns)) last) (verbose : Bool) (limit : Option Int) :
    RunsAs h fuel turns (recordsFrom h .initial (apart label turns))
      (last.move (ofPlaces fun _ => id).line)
      ((Session.start verbose limit).turn h ⟨joined (turns.map Turn.text), false, fuel⟩).1 := by
  have hclean' : ∀ text ∈ turns.map Turn.text, Report.issuesOf text = [] :=
    List.forall_mem_map.mpr hclean
  have hclosed' : ∀ text ∈ turns.map Turn.text, ∀ body,
      Piece.blockComment body false ∉ pieces text.toList := List.forall_mem_map.mpr hclosed
  obtain ⟨hjoined, hprogram⟩ := cleanText_joined hclean' hclosed'
  have hissues : Report.issuesOf (joined (turns.map Turn.text)) = [] :=
    issuesOf_eq_nil.mpr ⟨_, hjoined⟩
  have hwhole : runProgram h fuel (programOf (joined (turns.map Turn.text))) .initial =
      runAll h fuel (apart label turns) .initial
        (ofPlaces (joinedPlace (turns.map Turn.text))) := by
    rw [hprogram, runAll_label hclean, program_apart]
  have hturn := ((Session.start verbose limit).turn_of_clean (h := h)
    (t := ⟨joined (turns.map Turn.text), false, fuel⟩) hissues rfl (congrArg _ hwhole)).1
  rw [hturn]
  cases hsums with
  | done hs hf hall =>
    obtain ⟨s, hs', ho⟩ := hall (ofPlaces (joinedPlace (turns.map Turn.text)))
    rw [hs']
    exact ⟨hissues, rfl, ho, hs.symm, fun _ => rfl, fun f hf' => absurd hf' (by simp [Record.move, hf])⟩
  | failed error line hs hf hall =>
    obtain ⟨s, hs', ho⟩ := hall (ofPlaces (joinedPlace (turns.map Turn.text)))
    rw [hs']
    refine ⟨hissues, rfl, ho, hs.symm,
      fun hnone => absurd hnone (by simp [Record.move, hf]), fun f hf' => ?_⟩
    obtain ⟨t, ht, hfails⟩ := exists_failsAt hclean hlast hf fun R => (hall R).imp fun _ hs => hs.1
    obtain ⟨turn, hturn, hmem⟩ := hfails.within
    refine ⟨error, _, t, hfails, ?_, ?_, ?_⟩
    · rw [Record.move, hf] at hf'
      rw [ht]
      exact (Option.some.inj hf').symm
    · rw [(tokens_joined hclean' hclosed').1]
      refine mem_placed ?_ hmem
      rw [List.getElem?_map, List.getElem?_map, hturn]
      rfl
    · rw [ht]
      rfl
  | broken breakage hall =>
    exact absurd (hwhole.trans (hall _)) (runProgram_of_clean_not_broken h hissues fuel breakage)

/-- **Piece by piece and at once.** Let texts, none of which is wrong or ends in an open comment, be
run one after the other in a session, where all are done but possibly the last. Then nothing is
wrong with the joined texts, and run in another session they print the same and end in the same way.
If they fail, it is about the same token, with the same message, on the line of this token in the
joined texts. -/
theorem Session.piecewise (h : Host) (verbose verbose' : Bool) (limit limit' : Option Int)
    {turns : List Turn} {last : Record} {fuel : Nat}
    (hrun : ∀ t ∈ turns, t.checkOnly = false ∧ t.fuel ≤ fuel)
    (hclean : ∀ t ∈ turns, Report.issuesOf t.text = [])
    (hclosed : ∀ t ∈ turns, ∀ body, Piece.blockComment body false ∉ pieces t.text.toList)
    (hlast : ((Session.start verbose limit).records h turns).getLast? = some last)
    (hok : ∀ r ∈ ((Session.start verbose limit).records h turns).dropLast, r.status = .ok)
    (hends : last.status ≠ .unfinished) :
    RunsAs h fuel turns ((Session.start verbose limit).records h turns) last
      ((Session.start verbose' limit').turn h ⟨joined (turns.map Turn.text), false, fuel⟩).1 := by
  have hrecords : (Session.start verbose limit).records h turns =
      (recordsFrom h .initial (apart label turns)).map
        (Record.move (ofPlaces fun _ => id).line) := by
    rw [Session.records_of_clean fun t ht => ⟨(hrun t ht).1, hclean t ht⟩, ← apart_id hclean,
      ← recordsFrom_label hclean]
    rfl
  rw [hrecords, List.getLast?_map, Option.map_eq_some_iff] at hlast
  obtain ⟨last, hlast, rfl⟩ := hlast
  rw [hrecords, ← List.map_dropLast, List.forall_mem_map] at hok
  have hfuel : ∀ q ∈ apart label turns, q.fuel ≤ fuel := by
    intro q hq
    obtain ⟨k, hk, rfl⟩ := List.mem_mapIdx.mp hq
    exact (hrun _ (List.getElem_mem hk)).2
  have hsums := sums_records (apart label turns) hfuel hlast hok hends
  have hruns := runsAs_of_sums hclean hclosed hlast hsums verbose' limit'
  have houtput : ((Session.start verbose limit).records h turns).map Record.output =
      (recordsFrom h .initial (apart label turns)).map Record.output := by
    rw [hrecords, List.map_map]
    rfl
  exact { hruns with output := houtput ▸ hruns.output }

/-! ### A function that fails when a later text calls it -/

def declaringText : String := "fun f()\x7b print \"a\";\nnil();\x7d"

def callingText : String := "f();"

def failing : Function Link :=
  .mk ⟨"f", ⟨1, 4⟩⟩ [] [.print (.literal (.string "a") ⟨.string, "\"a\"", ⟨1, 15⟩⟩),
    .expression (.call (.literal .nil ⟨.keyword .nil, "nil", ⟨2, 20⟩⟩) [] ⟨2, 24⟩)]

def callOfFailing : Stmt Link :=
  .expression (.call (.var ⟨⟨"f", ⟨1, 0⟩⟩, none⟩) [] ⟨1, 2⟩)

def failingStore : Store :=
  { Store.initial with
    frames := Store.initial.frames.define 0 "f" (.closure ⟨0, failing, [0], false⟩)
    fresh := 1 }

def failingTurns : List Turn :=
  [⟨declaringText, false, 9⟩, ⟨callingText, false, 9⟩]

theorem compiled_declaring :
    Report.issuesOf declaringText = [] ∧ programOf declaringText = [.function failing] := by
  unfold declaringText
  exact ⟨by cbv, by cbv⟩

theorem compiled_calling :
    Report.issuesOf callingText = [] ∧ programOf callingText = [callOfFailing] := by
  unfold callingText
  exact ⟨by cbv, by cbv⟩

theorem clean_failing : ∀ t ∈ failingTurns, t.checkOnly = false ∧ Report.issuesOf t.text = [] := by
  simp [failingTurns, compiled_declaring.1, compiled_calling.1]

theorem records_failing : (Session.start false none).records ⟨fun _ => 0, 1000⟩ failingTurns =
    [⟨.ok, "", [], none⟩,
      ⟨.softwareError, "a\n", [], some ⟨2, "Can only call functions and classes."⟩⟩] := by
  have hdeclares : runProgram ⟨fun _ => 0, 1000⟩ 9 (programOf declaringText) .initial =
      .done () failingStore := by
    rw [compiled_declaring.2, runProgram, execute]
    rfl
  have hcalls : runProgram ⟨fun _ => 0, 1000⟩ 9 (programOf callingText) failingStore =
      .failed .notCallable 2 { failingStore with
        frames := failingStore.frames.push .empty
        output := "a\n" } := by
    rw [compiled_calling.2]
    cbv
  rw [Session.records_of_clean clean_failing]
  show recordsFrom ⟨fun _ => 0, 1000⟩ .initial
    [⟨9, programOf declaringText⟩, ⟨9, programOf callingText⟩] = _
  simp only [recordsFrom, hdeclares, Ending.of]
  rw [show ({ failingStore with output := "" } : Store) = failingStore from rfl, hcalls]
  rfl

/-- Nothing in the two texts is open at its end. -/
theorem closed_failing : ∀ t ∈ failingTurns, ∀ body,
    Piece.blockComment body false ∉ pieces t.text.toList := by
  have hdeclaring : pieces declaringText.toList = [.word ['f', 'u', 'n'], .blank ' ', .word ['f'],
      .symbol .leftParen, .symbol .rightParen, .symbol .leftBrace, .blank ' ',
      .word ['p', 'r', 'i', 'n', 't'], .blank ' ', .string ['a'], .symbol .semicolon, .newline,
      .word ['n', 'i', 'l'], .symbol .leftParen, .symbol .rightParen, .symbol .semicolon,
      .symbol .rightBrace] := by
    unfold declaringText
    cbv
  have hcalling : pieces callingText.toList =
      [.word ['f'], .symbol .leftParen, .symbol .rightParen, .symbol .semicolon] := by
    unfold callingText
    cbv
  simp [failingTurns, hdeclaring, hcalling]

/-- The function fails on the line on which it stands in the first text, and on the same line of the
joined texts. -/
theorem piecewise_failing :
    RunsAs ⟨fun _ => 0, 1000⟩ 9 failingTurns
      ((Session.start false none).records ⟨fun _ => 0, 1000⟩ failingTurns)
      ⟨.softwareError, "a\n", [], some ⟨2, "Can only call functions and classes."⟩⟩
      ((Session.start true (some 1)).turn ⟨fun _ => 0, 1000⟩
        ⟨joined (failingTurns.map Turn.text), false, 9⟩).1 := by
  refine Session.piecewise ⟨fun _ => 0, 1000⟩ false true none (some 1) ?_
    (fun t ht => (clean_failing t ht).2) closed_failing ?_ ?_ ?_
  · simp [failingTurns]
  · rw [records_failing]
    rfl
  · simp [records_failing]
  · simp

end LoxKit
