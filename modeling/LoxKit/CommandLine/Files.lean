import LoxKit.Text.Quoted
import LoxKit.Text.Utf8

/-!
# Files

Paths, and a directory tree held in memory. A path loses empty steps and steps to where it already
is; a step upward stays, since it depends on what is there.

Headlines:
* `Path.steps_dot`: a step to where a path already is does nothing.
* `Tree.read_dot`: a directory itself cannot be read.
-/

namespace LoxKit.CommandLine

/-- Why a file cannot be read. -/
inductive ReadFault where
  | missing
  | denied
  | notADirectory
  | isADirectory
  | nameTooLong
  deriving Repr, DecidableEq

/-- A reason in words, with the number that systems give it. -/
def ReadFault.message (f : ReadFault) (path : String) : String :=
  let reason := match f with
    | missing => "[Errno 2] No such file or directory"
    | denied => "[Errno 13] Permission denied"
    | notADirectory => "[Errno 20] Not a directory"
    | isADirectory => "[Errno 21] Is a directory"
    | nameTooLong => "[Errno 36] File name too long"
  reason ++ ": " ++ Text.quoted path

namespace Path

/-- Cuts a text at its slashes. -/
def splitSlashes : List Char → List (List Char)
  | [] => [[]]
  | c :: cs =>
    if c = '/' then [] :: splitSlashes cs
    else
      match splitSlashes cs with
      | [] => [[c]]
      | part :: parts => (c :: part) :: parts

/-- The steps of a path. -/
def steps (cs : List Char) : List String :=
  ((splitSlashes cs).filter fun part => part ≠ [] ∧ part ≠ ['.']).map String.ofList

/-- Whether a path starts at the root. -/
def isAbsolute (cs : List Char) : Bool :=
  cs.head? == some '/'

/-- The slashes that a path at the root starts with. Exactly two of them mean something else than
one; more do not. -/
def rootOf (cs : List Char) : String :=
  if (cs.takeWhile (· == '/')).length = 2 then "//" else "/"

/-- A path as it is shown, seen from a directory. -/
def shown (directory : String) (path : String) : String :=
  let cs := path.toList
  let joined := String.intercalate "/" (steps cs)
  if isAbsolute cs then rootOf cs ++ joined
  else if joined = "" then directory
  else directory ++ "/" ++ joined

theorem steps_dot : steps ['.'] = [] := rfl

end Path

/-- The most bytes that a step of a path may have. -/
def maxStepBytes : Nat := 255

/-- The most bytes that a path may have. -/
def maxPathBytes : Nat := 4095

/-- A directory: the files under it, each under its path. -/
structure Tree where
  files : List (List String × List UInt8)

namespace Tree

/-- A tree of files with given names. -/
def ofFiles (files : List (String × List UInt8)) : Tree :=
  ⟨files.map fun (name, content) => (Path.steps name.toList, content)⟩

/-- The file at a place. -/
def file? (t : Tree) (place : List String) : Option (List UInt8) :=
  t.files.lookup place

/-- Whether there is a directory at a place: some file lies below it. -/
def isDirectory (t : Tree) (place : List String) : Bool :=
  place = [] || t.files.any fun (path, _) => place.isPrefixOf path && path != place

/-- What is wrong with a step that leads nowhere. -/
def strayStep (step : String) : ReadFault :=
  if maxStepBytes < step.utf8ByteSize then .nameTooLong else .missing

/-- Walks steps from a place on, or from so many directories outside the tree. Out there nothing is
known but the directories that lie one above the other, without an end. -/
def walk (t : Tree) (outside : Nat) (place : List String) :
    List String → Except ReadFault (List UInt8)
  | [] =>
    if outside = 0 then
      match t.file? place with
      | some content => .ok content
      | none => .error (if t.isDirectory place then .isADirectory else .missing)
    else .error .isADirectory
  | step :: rest =>
    if outside ≠ 0 then
      if step = ".." then walk t (outside + 1) place rest else .error (strayStep step)
    else if (t.file? place).isSome then .error .notADirectory
    else if !t.isDirectory place then .error .missing
    else if maxStepBytes < step.utf8ByteSize then .error .nameTooLong
    else if step = ".." then
      match place with
      | [] => walk t 1 [] rest
      | _ => walk t 0 place.dropLast rest
    else walk t 0 (place ++ [step]) rest

/-- Reads the file that a path leads to from the directory. A slash stands before every path, which
counts as a byte of it. The root lies outside and above itself. -/
def read (t : Tree) (path : String) : Except ReadFault (List UInt8) :=
  let cs := path.toList
  let steps := Path.steps cs
  if maxPathBytes ≤ (String.intercalate "/" steps).utf8ByteSize then .error .nameTooLong
  else if Path.isAbsolute cs then t.walk 1 [] steps
  else t.walk 0 [] steps

/-- A directory itself cannot be read. -/
theorem read_dot (t : Tree) (h : t.file? [] = none) : t.read "." = .error .isADirectory := by
  simp [read, Path.isAbsolute, Path.steps, Path.splitSlashes, walk, h, isDirectory, maxPathBytes]

end Tree

end LoxKit.CommandLine
