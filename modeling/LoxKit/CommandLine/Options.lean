import LoxKit.Text.Integer
import LoxKit.Text.Quoted

/-!
# Options

What the arguments of the command line ask for. An argument is an option if it starts with a dash
and is not a negative number. A long option may be cut short and may carry its value behind an
equals sign; short options may stand together, and the first of them may have an equals sign behind
it. Behind `--` there are only operands. The first operand is the program, and there must be no more
than one.

Arguments are first told apart, each on its own, and then taken in order; the first that asks for
help or is a mistake ends it. What nothing takes is complained about at the end.

Headlines:
* `Request.ofArguments`: what arguments ask for.
* `cluster_isOk_iff`: letters stand together if each of them is that of a short option.
* `Request.ofArguments_nil`: without arguments there is no program and nothing is switched on.
-/

namespace LoxKit.CommandLine

/-- The options there are. -/
inductive Switch where
  | help | check | printTree | verbose | maxIssues
  deriving Repr, DecidableEq

namespace Switch

/-- The options in the order in which they are listed. -/
def all : List Switch :=
  [help, check, printTree, verbose, maxIssues]

/-- The letter of a short option. -/
def letter? : Switch → Option Char
  | help => some 'h'
  | check => some 'c'
  | printTree => some 'p'
  | verbose => some 'v'
  | maxIssues => none

/-- The word of a long option, with its dashes. -/
def word : Switch → String
  | help => "--help"
  | check => "--check"
  | printTree => "--print-ast"
  | verbose => "--verbose"
  | maxIssues => "--max-issues"

/-- All the ways to write an option. -/
def names (s : Switch) : String :=
  match s.letter? with
  | none => s.word
  | some c => String.ofList ['-', c, '/'] ++ s.word

/-- The option with a letter. -/
def ofLetter? (c : Char) : Option Switch :=
  all.find? fun s => s.letter? == some c

/-- The options with a long word that begins so. -/
def beginningWith (start : List Char) : List Switch :=
  all.filter fun s => start.isPrefixOf s.word.toList

end Switch

/-- What can be wrong with arguments. -/
inductive UsageError where
  | ambiguous (argument : String) (candidates : List Switch)
  | missingValue (s : Switch)
  | notANumber (s : Switch) (value : String)
  | superfluousValue (s : Switch) (value : String)
  | unrecognized (arguments : List String)
  deriving Repr, DecidableEq

/-- A mistake in words. -/
def UsageError.message : UsageError → String
  | ambiguous argument candidates =>
    "ambiguous option: " ++ argument ++ " could match " ++
      String.intercalate ", " (candidates.map Switch.word)
  | missingValue s => "argument " ++ s.names ++ ": expected one argument"
  | notANumber s value =>
    "argument " ++ s.names ++ ": invalid int value: " ++ Text.quoted value
  | superfluousValue s value =>
    "argument " ++ s.names ++ ": ignored explicit argument " ++ Text.quoted value
  | unrecognized arguments =>
    "unrecognized arguments: " ++ String.intercalate " " arguments

/-! ## Telling arguments apart -/

/-- An argument on its own. -/
inductive Argument where
  /-- Something that is not an option. -/
  | operand (text : String)
  /-- The `--` behind which there are only operands. -/
  | separator
  /-- A long option, with the value behind its equals sign if there is one. -/
  | long (s : Switch) (value : Option String)
  /-- A short option, with the letters that follow it if there is anything behind it. -/
  | short (s : Switch) (letters : Option (List Char))
  /-- An option that does not exist. -/
  | unknown (text : String)
  deriving Repr, DecidableEq

/-- What stands before the first equals sign, and what behind it if there is one. -/
def splitEquals (cs : List Char) : List Char × Option (List Char) :=
  match cs.dropWhile (· != '=') with
  | [] => (cs, none)
  | _ :: value => (cs.takeWhile (· != '='), some value)

/-- The letters that follow a short option: an equals sign before them does not count. -/
def followers : List Char → Option (List Char)
  | [] => none
  | '=' :: letters => some letters
  | letters => some letters

/-- An argument that is no option that exists. -/
def notAnOption (text : String) : Argument :=
  let cs := text.toList
  if Text.isNegativeNumeral cs || cs.contains ' ' then .operand text else .unknown text

/-- Tells what an argument before `--` is. -/
def Argument.ofText (text : String) : Except UsageError Argument :=
  match text.toList with
  | '-' :: '-' :: cs =>
    let (start, value) := splitEquals ('-' :: '-' :: cs)
    match Switch.all.find? fun s => s.word.toList == start with
    | some s => .ok (.long s (value.map String.ofList))
    | none =>
      match Switch.beginningWith start with
      | [] => .ok (notAnOption text)
      | [s] => .ok (.long s (value.map String.ofList))
      | candidates => .error (.ambiguous text candidates)
  | '-' :: c :: cs =>
    match Switch.ofLetter? c with
    | some s => .ok (.short s (followers cs))
    | none => .ok (notAnOption text)
  | _ => .ok (.operand text)

/-- Tells what arguments are. -/
def Argument.ofTexts : List String → Except UsageError (List Argument)
  | [] => .ok []
  | text :: texts =>
    if text = "--" then .ok (.separator :: texts.map .operand)
    else
      match Argument.ofText text with
      | .error e => .error e
      | .ok a =>
        match Argument.ofTexts texts with
        | .error e => .error e
        | .ok as => .ok (a :: as)

/-! ## Taking arguments -/

/-- What the arguments switch on. -/
structure Options where
  program : Option String
  check : Bool
  printTree : Bool
  verbose : Bool
  maxIssues : Option Int
  deriving Repr, DecidableEq

/-- No program, and nothing switched on. -/
def Options.none : Options :=
  ⟨.none, false, false, false, .none⟩

/-- What the command line asks for. -/
inductive Request where
  | help
  | refuse (error : UsageError)
  | go (options : Options)
  deriving Repr, DecidableEq

/-- Switches on an option that takes no value. The option for help is not among them. -/
def Options.switchOn (o : Options) : Switch → Options
  | .check => { o with check := true }
  | .printTree => { o with printTree := true }
  | .verbose => { o with verbose := true }
  | .help | .maxIssues => o

/-- Switches on several options. None is left when one of them asks for help. -/
def Options.switchOnAll (o : Options) (switches : List Switch) : Option Options :=
  if switches.contains .help then .none else some (switches.foldl Options.switchOn o)

/-- The short options that letters behind a first one stand for. At a letter of none, what is left
counts as a value that the option before it does not take. -/
def cluster (first : Switch) : (letters : List Char) → Except UsageError (List Switch)
  | [] => .ok [first]
  | c :: cs =>
    match Switch.ofLetter? c with
    | none => .error (.superfluousValue first (String.ofList (c :: cs)))
    | some s => (cluster s cs).map (first :: ·)

/-- A short option with those behind it. An equals sign with nothing behind it is an empty value. -/
def Switch.withFollowers (first : Switch) : Option (List Char) → Except UsageError (List Switch)
  | none => .ok [first]
  | some [] => .error (.superfluousValue first "")
  | some letters => cluster first letters

/-- Takes arguments in order. What nothing takes is collected in `left`. -/
def takeArguments (o : Options) (left : List String) : List Argument → Request
  | [] => if left = [] then .go o else .refuse (.unrecognized left)
  | .operand text :: rest =>
    if o.program.isSome then takeArguments o (left ++ [text]) rest
    else
      match rest with
      | .separator :: rest => takeArguments { o with program := some text } left rest
      | rest => takeArguments { o with program := some text } left rest
  | .separator :: rest =>
    if o.program.isSome then takeArguments o (left ++ ["--"]) rest
    else takeArguments o left rest
  | .unknown text :: rest => takeArguments o (left ++ [text]) rest
  | .short s letters :: rest =>
    match s.withFollowers letters with
    | .error e => .refuse e
    | .ok switches =>
      match o.switchOnAll switches with
      | none => .help
      | some o => takeArguments o left rest
  | .long .maxIssues (some value) :: rest => takeLimit o left value rest
  | .long .maxIssues none :: .operand value :: rest => takeLimit o left value rest
  | .long .maxIssues none :: _ => .refuse (.missingValue .maxIssues)
  | .long s (some value) :: _ => .refuse (.superfluousValue s value)
  | .long s none :: rest =>
    match o.switchOnAll [s] with
    | none => .help
    | some o => takeArguments o left rest
where
  /-- Takes the value of the option that limits the issues. -/
  takeLimit (o : Options) (left : List String) (value : String) (rest : List Argument) : Request :=
    match Text.readInteger value.toList with
    | none => .refuse (.notANumber .maxIssues value)
    | some k => takeArguments { o with maxIssues := some k } left rest

/-- What arguments ask for. -/
def Request.ofArguments (arguments : List String) : Request :=
  match Argument.ofTexts arguments with
  | .error e => .refuse e
  | .ok as => takeArguments .none [] as

/-- Letters stand together if each of them is that of a short option. -/
theorem cluster_isOk_iff {first : Switch} {letters : List Char} :
    (cluster first letters).isOk = true ↔ ∀ c ∈ letters, (Switch.ofLetter? c).isSome = true := by
  induction letters generalizing first with
  | nil => simp [cluster, Except.isOk, Except.toBool]
  | cons c cs ih =>
    have hmap (s : Switch) :
        ((cluster s cs).map (first :: ·)).isOk = (cluster s cs).isOk := by
      cases cluster s cs <;> rfl
    cases hc : Switch.ofLetter? c with
    | none => simp [cluster, hc, Except.isOk, Except.toBool]
    | some s => simp [cluster, hc, hmap, ih]

/-- Without arguments there is no program and nothing is switched on. -/
theorem Request.ofArguments_nil : Request.ofArguments [] = .go .none := by
  simp [ofArguments, Argument.ofTexts, takeArguments]

/-- How the command is used. -/
def usage : String :=
  "usage: lox [-h] [-c] [-p] [-v] [--max-issues MAX_ISSUES] [program]\n"

/-- The help. -/
def help : String :=
  usage ++ "\nInterpreter for the Lox programming language.\n\n" ++
  "positional arguments:\n" ++
  "  program               script to run; omit for an interactive prompt.\n\n" ++
  "options:\n" ++
  "  -h, --help            show this help message and exit\n" ++
  "  -c, --check           Check the program but do not actually execute it.\n" ++
  "  -p, --print-ast       Print the syntax tree of each top-level statement\n" ++
  "                        before anything else.\n" ++
  "  -v, --verbose         Say more about what is going on.\n" ++
  "  --max-issues MAX_ISSUES\n" ++
  "                        Give up after this many static issues.\n"

end LoxKit.CommandLine
