import LoxKit.Session
import LoxKit.Text.Blank

/-!
# The prompt

An interactive session. Each line is a program of its own, except that a blank line does nothing,
`exit` leaves, and so does `EOF`, which also stands for the end of the input.

Headline:
* `Prompt.enter`: what a line does.
-/

namespace LoxKit

/-- A session at the prompt, and how the last line that was run ended. -/
structure Prompt where
  session : Session
  lastStatus : Status

namespace Prompt

/-- What is shown first. -/
def intro : String := "Lox interpreter. Type 'exit' or end-of-file to leave."

/-- What is shown before each line. -/
def mark : String := "> "

/-- What a line asks for. -/
inductive Command where
  | nothing
  | endOfInput
  | leave
  | run (text : String)
  deriving Repr, DecidableEq

/-- Reads a line. A program keeps its blanks. -/
def Command.ofLine (line : String) : Command :=
  let word := String.ofList (Text.trim line.toList)
  if word = "" then nothing
  else if word = "EOF" then endOfInput
  else if word = "exit" then leave
  else run line

/-- A prompt at which nothing was entered. -/
def start (session : Session) : Prompt :=
  ⟨session, .ok⟩

/-- Prints text. -/
def print (p : Prompt) (text : String) : Prompt :=
  let store := p.session.store
  { p with session := { p.session with store := { store with output := store.output ++ text } } }

/-- Takes a line. The flag says whether to leave. -/
def enter (p : Prompt) (h : Host) (fuel : Nat) (line : String) : Prompt × Bool :=
  match Command.ofLine line with
  | .nothing => (p, false)
  | .endOfInput => (p.print "\n", true)
  | .leave => (p, true)
  | .run text =>
    let (session, status) := p.session.run h fuel text false
    if status = .ok then (⟨session, status⟩, false)
    else (⟨{ session with report := session.report.complain }, status⟩, false)

/-- Takes lines until one leaves or none is left. Before each the mark is shown. -/
def enterAll (p : Prompt) (h : Host) (fuel : Nat) : List String → Prompt
  | [] => ((p.print mark).enter h fuel "EOF").1
  | line :: lines =>
    match (p.print mark).enter h fuel line with
    | (p, true) => p
    | (p, false) => p.enterAll h fuel lines

end Prompt

end LoxKit
