import LoxKit.CommandLine.Files
import LoxKit.CommandLine.Options
import LoxKit.Prompt
import LoxKit.Syntax.Render

/-!
# Invocations

What a command line does. With a program it runs the text of a file; the tree of each statement is
printed before, if that is asked for. Without a program it is a prompt on the lines of its input.

Headlines:
* `invoke`: the exit, the output and the console text of a command line.
* `splitLines_ne_nil_of_ne_empty`: an input that is not empty has a line.
-/

namespace LoxKit.CommandLine

/-- How an invocation ends. -/
inductive Exit where
  /-- With an exit code. -/
  | code (n : Nat)
  /-- The program is no text. -/
  | notText (fault : Text.Utf8Fault)
  /-- While its tree was to be printed the program had more issues than the limit allows. -/
  | tooManyIssues
  deriving Repr, DecidableEq

/-- What an invocation leaves behind. -/
structure Result where
  exit : Exit
  output : String
  console : String
  deriving Repr, DecidableEq

/-- A program on the command line: its path, and the bytes there or why there are none. -/
structure Source where
  path : String
  content : Except ReadFault (List UInt8)

/-- What invocations find around them. -/
structure World where
  host : Host
  fuel : Nat
  /-- The program that an argument names. -/
  source : String → Source
  /-- The lines of the input. -/
  lines : List String

/-- The lines of an input. Only a line feed ends a line. -/
def splitLines : List Char → List (List Char)
  | [] => []
  | c :: cs =>
    if c = '\n' then [] :: splitLines cs
    else
      match splitLines cs with
      | [] => [[c]]
      | line :: lines => (c :: line) :: lines

/-- The text that bytes stand for, with its line ends made one. -/
def readText (bytes : List UInt8) : Except Text.Utf8Fault String :=
  (Text.readUtf8 bytes).map fun cs => String.ofList (Text.unifyNewlines cs)

/-- How printing the trees of a program ends. -/
inductive Printed where
  | done (session : Session)
  | escaped (exit : Exit) (session : Session)

/-- Prints the tree of each statement of a program. Its issues are forgotten, and a program that
cannot be read is passed over. -/
def printTrees (session : Session) (source : Source) : Printed :=
  match source.content with
  | .error _ => .done { session with report := session.report.reset }
  | .ok bytes =>
    match readText bytes with
    | .error fault => .escaped (.notText fault) session
    | .ok text =>
      match (session.report.setSource text.toList).readText text with
      | (report, none) => .escaped .tooManyIssues { session with report }
      | (report, some stmts) =>
        let trees := String.join (stmts.map fun stmt => stmt.render ++ "\n")
        let store := { session.store with output := session.store.output ++ trees }
        .done ⟨report.reset, store⟩

/-- Ends an invocation with what a session has printed and said. -/
def Result.ofSession (exit : Exit) (session : Session) : Result :=
  ⟨exit, session.store.output, session.report.console⟩

/-- Runs a program, or checks it, and says how that went. -/
def runSource (w : World) (session : Session) (source : Source) (check : Bool) : Result :=
  let session := { session with report := session.report.info ("Loading " ++ source.path) }
  match source.content with
  | .error fault =>
    let report := session.report.info (fault.message source.path)
    let report := report.say ("Could not read " ++ source.path)
    .ofSession (.code Status.noInput.code) { session with report }
  | .ok bytes =>
    match readText bytes with
    | .error fault => .ofSession (.notText fault) session
    | .ok text =>
      let (session, status) := session.run w.host w.fuel text check
      let report :=
        if status ≠ .ok then session.report.complain
        else if check then session.report.say "Looks plausible to me."
        else session.report
      .ofSession (.code status.code) { session with report }

/-- What an invocation with a program does. -/
def runProgramFile (w : World) (o : Options) (program : String) : Result :=
  let session := Session.start o.verbose o.maxIssues
  let source := w.source program
  if o.printTree then
    match printTrees session source with
    | .escaped exit session => .ofSession exit session
    | .done session => runSource w session source o.check
  else runSource w session source o.check

/-- What an invocation without a program does. -/
def runPrompt (w : World) (o : Options) : Result :=
  let prompt := Prompt.start (Session.start o.verbose o.maxIssues)
  let prompt := (prompt.print (Prompt.intro ++ "\n")).enterAll w.host w.fuel w.lines
  .ofSession (.code 0) prompt.session

/-- What a request does. -/
def serve (w : World) : Request → Result
  | .help => ⟨.code 0, help, ""⟩
  | .refuse error => ⟨.code 2, "", usage ++ "lox: error: " ++ error.message ++ "\n"⟩
  | .go o =>
    match o.program with
    | none => runPrompt w o
    | some program => runProgramFile w o program

/-- What a command line does. -/
def invoke (w : World) (arguments : List String) : Result :=
  serve w (.ofArguments arguments)

/-- An input that is not empty has a line. -/
theorem splitLines_ne_nil_of_ne_empty {cs : List Char} (h : cs ≠ []) : splitLines cs ≠ [] := by
  cases cs with
  | nil => exact absurd rfl h
  | cons c cs =>
    unfold splitLines
    split
    · simp
    · split <;> simp

end LoxKit.CommandLine
