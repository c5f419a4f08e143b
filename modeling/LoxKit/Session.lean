import LoxKit.Grammar.Statement
import LoxKit.Machine.Evaluation
import LoxKit.Report
import LoxKit.Scope.Linking
import LoxKit.Syntax.Outline

/-!
# Sessions

A session runs texts one after the other. Globals, functions, classes and objects stay from one run
to the next; issues and failures do not. A text is read, its references are linked, and only if
neither has an issue does it run.

Headlines:
* `Report.compile`: reading and linking, with the issues noted in a report.
* `Session.run`: one run.
* `Session.run_checkOnly_store`: a run that only checks leaves the store as it is.
-/

namespace LoxKit

/-- The part of compilation that found issues. -/
inductive Phase where
  | parse
  | resolve
  deriving Repr, DecidableEq

/-- What a phase is called. -/
def Phase.word : Phase → String
  | parse => "parse"
  | resolve => "resolve"

/-- What became of a text. -/
inductive Compiled where
  /-- The report is full. -/
  | tooManyIssues
  /-- A phase found issues. -/
  | stopped (phase : Phase)
  /-- Nothing is wrong. -/
  | ready (program : List (Stmt Link))

namespace Report

/-- Reads a text. There are no statements when the report is full. -/
def readText (r : Report) (text : String) : Report × Option (List (Stmt Unit)) :=
  let tokens := Tokens.ofText text
  match r.noteAll tokens.issues with
  | (r, true) => (r, none)
  | (r, false) =>
    let r := r.info ("Scanned " ++ toString tokens.all.length ++ " tokens")
    let parsed := Grammar.parse tokens
    match r.noteAll parsed.issues with
    | (r, true) => (r, none)
    | (r, false) => (r, some parsed.statements)

/-- Links statements. There are none when the report is full. -/
def link (r : Report) (stmts : List (Stmt Unit)) : Report × Option (List (Stmt Link)) :=
  let linked := linkProgram stmts
  match r.noteAll linked.issues with
  | (r, true) => (r, none)
  | (r, false) => (r, some linked.tree)

/-- Reads and links a text. -/
def compile (r : Report) (text : String) : Report × Compiled :=
  match r.readText text with
  | (r, none) => (r, .tooManyIssues)
  | (r, some stmts) =>
    if !r.ok then (r, .stopped .parse)
    else
      let r := r.info ("Parsed " ++ toString stmts.length ++ " top-level statements")
      match r.link stmts with
      | (r, none) => (r, .tooManyIssues)
      | (r, some program) =>
        if !r.ok then (r, .stopped .resolve)
        else
          let count := (Entry.locals program).length
          (r.info ("Resolved " ++ toString count ++ " local references"), .ready program)

end Report

/-- How a run ended. -/
inductive Status where
  | ok
  /-- The text has issues. -/
  | dataError
  /-- The text could not be read. -/
  | noInput
  /-- The program failed. -/
  | softwareError
  /-- The program made an access that linking rules out. -/
  | broken (breakage : Breakage)
  /-- The steps allowed did not suffice. -/
  | unfinished
  deriving Repr, DecidableEq

/-- The exit code of a status. -/
def Status.code : Status → Nat
  | ok => 0
  | dataError => 65
  | noInput => 66
  | softwareError | broken _ | unfinished => 70

/-- What stays from one run to the next. -/
structure Session where
  report : Report
  store : Store

namespace Session

/-- A session that has not run anything. -/
def start (verbose : Bool) (limit : Option Int) : Session :=
  ⟨.empty verbose limit, .initial⟩

/-- Runs a program that is ready. -/
def execute (session : Session) (h : Host) (fuel : Nat) (program : List (Stmt Link)) :
    Session × Status :=
  match runProgram h fuel program session.store with
  | .done () store => ({ session with store }, .ok)
  | .failed error line store =>
    (⟨session.report.fail ⟨line, error.message⟩, store⟩, .softwareError)
  | .broken breakage => (session, .broken breakage)
  | .unfinished => (session, .unfinished)

/-- Runs a text, or only checks it. -/
def run (session : Session) (h : Host) (fuel : Nat) (text : String) (checkOnly : Bool) :
    Session × Status :=
  let report := session.report.reset.setSource text.toList
  match report.compile text with
  | (report, .tooManyIssues) => ({ session with report }, .dataError)
  | (report, .stopped phase) =>
    let report := report.info ("Stopped after the " ++ phase.word ++ " phase")
    ({ session with report }, .dataError)
  | (report, .ready program) =>
    if checkOnly then ({ session with report }, .ok)
    else execute { session with report } h fuel program

/-- What was printed since the last time, and the session without it. -/
def takeOutput (session : Session) : String × Session :=
  (session.store.output, { session with store := { session.store with output := "" } })

/-- What was written to the console since the last time, and the session without it. -/
def takeConsole (session : Session) : String × Session :=
  (session.report.console, { session with report := { session.report with console := "" } })

/-- A run that only checks leaves the store as it is. -/
theorem run_checkOnly_store (session : Session) (h : Host) (fuel : Nat) (text : String) :
    (session.run h fuel text true).1.store = session.store := by
  simp only [run]
  split <;> simp

end Session

end LoxKit
