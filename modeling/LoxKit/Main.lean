import LoxKit.CommandLine.Invocation
import Std.Time.DateTime.Timestamp

/-!
# The command

The outer layer of the `lox` command: it reads the program or the lines that are typed, hands them
to the library, and writes what comes back.
-/

namespace LoxKit.Command

open CommandLine

/-- The time now, in seconds since 1970. -/
def now : IO Float := do
  let t ← Std.Time.Timestamp.now
  return Float.ofInt t.toNanosecondsSinceUnixEpoch.val / 1000000000.0

/-- Why reading a file failed. -/
def readFault : IO.Error → ReadFault
  | .noFileOrDirectory .. => .missing
  | .permissionDenied .. => .denied
  | .invalidArgument _ code _ => if code = 36 then .nameTooLong else .isADirectory
  | .inappropriateType _ code _ => if code = 20 then .notADirectory else .isADirectory
  | _ => .isADirectory

/-- The program that an argument names. -/
def load (argument : String) : IO Source := do
  let path := Path.shown (toString (← IO.currentDir)) argument
  try
    let bytes ← IO.FS.readBinFile path
    return ⟨path, .ok bytes.toList⟩
  catch e => return ⟨path, .error (readFault e)⟩

/-- Writes what a session has printed and said, and forgets it. -/
def flush (session : Session) : IO Session := do
  let (output, session) := session.takeOutput
  let (console, session) := session.takeConsole
  IO.print output
  IO.eprint console
  (← IO.getStdout).flush
  return session

/-- Takes lines as they are typed. -/
partial def converse (p : Prompt) : IO Unit := do
  let session ← flush (p.print Prompt.mark).session
  let typed ← (← IO.getStdin).getLine
  let line := if typed.isEmpty then "EOF" else (typed.dropSuffix "\n").toString
  let (p, leave) := Prompt.enter { p with session } (.ticking (← now)) Host.plenty line
  let session ← flush p.session
  unless leave do converse { p with session }

/-- Writes a result and gives its exit code. -/
def finish (r : Result) : IO UInt32 := do
  IO.print r.output
  IO.eprint r.console
  match r.exit with
  | .code n => return n.toUInt32
  | .notText fault =>
    IO.eprintln fault.message
    return 1
  | .tooManyIssues =>
    IO.eprintln "Too many issues."
    return 1

/-- Runs the command. -/
def run (arguments : List String) : IO UInt32 := do
  let request := Request.ofArguments arguments
  let host := Host.ticking (← now)
  match request with
  | .go o =>
    match o.program with
    | none =>
      let prompt := Prompt.start (.start o.verbose o.maxIssues)
      converse (prompt.print (Prompt.intro ++ "\n"))
      return 0
    | some program =>
      let source ← load program
      finish (serve ⟨host, Host.plenty, fun _ => source, []⟩ request)
  | _ => finish (serve ⟨host, Host.plenty, fun path => ⟨path, .error .missing⟩, []⟩ request)

end LoxKit.Command

/-- Runs the command with the arguments of the process. -/
def main (arguments : List String) : IO UInt32 :=
  LoxKit.Command.run arguments
