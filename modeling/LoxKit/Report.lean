import LoxKit.Issue
import LoxKit.Picture

/-!
# Reports

A report collects what is wrong with a program: issues found before it runs, each with a picture
drawn from the text known when it was noted, and the failure that ended its run, if one did. It
also keeps the lines written to the console, and it may limit the number of issues.

Headlines:
* `Report.noteAll_issues`: noting issues one by one takes them in order up to the limit.
* `Report.noteAll_append`: noting goes on behind issues that do not fill the report.
* `Report.noteAll_of_unlimited`: without a limit all of them are taken.
-/

namespace LoxKit

/-- An issue with its picture. -/
structure Notice where
  issue : Issue
  picture : Option String
  deriving Repr, DecidableEq

/-- A notice in full: the headline and, below it, the picture. -/
def Notice.text (n : Notice) : String :=
  match n.picture with
  | none => n.issue.headline
  | some picture => n.issue.headline ++ "\n" ++ picture

/-- A notice for display. -/
def Notice.display (n : Notice) : String :=
  "<Pic " ++ n.issue.headline ++ ">"

/-- What ended the run of a program before its end. -/
structure Failure where
  line : Nat
  message : String
  deriving Repr, DecidableEq

/-- A failure in full. -/
def Failure.text (f : Failure) : String :=
  f.message ++ "\n[line " ++ toString f.line ++ "]"

/-- What is known to be wrong, and what was written to the console. -/
structure Report where
  verbose : Bool
  limit : Option Int
  source : Option (List Char)
  notices : List Notice
  failure : Option Failure
  console : String
  deriving Repr, DecidableEq

namespace Report

/-- A report with nothing in it. -/
def empty (verbose : Bool) (limit : Option Int) : Report :=
  ⟨verbose, limit, none, [], none, ""⟩

/-- Whether there are no issues. -/
def ok (r : Report) : Bool :=
  r.notices.isEmpty

/-- Whether there are as many issues as the limit allows. A limit of zero is none. -/
def full (r : Report) : Bool :=
  match r.limit with
  | none => false
  | some k => k != 0 && k ≤ r.notices.length

/-- Forgets issues and failure but not the text they were about. -/
def reset (r : Report) : Report :=
  { r with notices := [], failure := none }

/-- Makes a text the one that pictures are drawn from. -/
def setSource (r : Report) (text : List Char) : Report :=
  { r with source := some text }

/-- Writes a line to the console. -/
def say (r : Report) (line : String) : Report :=
  { r with console := r.console ++ line ++ "\n" }

/-- Writes a line to the console when the report is to be verbose. -/
def info (r : Report) (line : String) : Report :=
  if r.verbose then r.say line else r

/-- Adds an issue, with its picture. -/
def note (r : Report) (i : Issue) : Report :=
  let limit := (r.source.map List.length).getD 0
  let picture := Picture.draw? r.source limit i.pos.offset i.width ""
  { r with notices := r.notices ++ [⟨i, picture⟩] }

/-- Adds issues one by one, up to the one that makes the report full. The flag says whether that
happened. -/
def noteAll (r : Report) : List Issue → Report × Bool
  | [] => (r, false)
  | i :: is =>
    let noted := r.note i
    if noted.full then (noted, true) else noted.noteAll is

/-- Sets the failure. -/
def fail (r : Report) (f : Failure) : Report :=
  { r with failure := some f }

/-- Writes all the issues and the failure to the console. -/
def complain (r : Report) : Report :=
  let noted := r.notices.foldl (fun r n => r.say n.text) r
  match r.failure with
  | none => noted
  | some f => noted.say f.text

/-- The issues without their pictures. -/
def issues (r : Report) : List Issue :=
  r.notices.map Notice.issue

@[simp]
theorem note_issues (r : Report) (i : Issue) : (r.note i).issues = r.issues ++ [i] := by
  simp [note, issues]

/-- Noting issues one by one takes them in order: all of them, or those up to the limit. -/
theorem noteAll_issues (r : Report) (is : List Issue) :
    ∃ k, (r.noteAll is).1.issues = r.issues ++ is.take k ∧
      ((r.noteAll is).2 = false → is.length ≤ k) := by
  induction is generalizing r with
  | nil => exact ⟨0, by simp [noteAll], by simp⟩
  | cons i is ih =>
    by_cases hf : (r.note i).full
    · exact ⟨1, by simp [noteAll, hf], by simp [noteAll, hf]⟩
    · obtain ⟨k, hk, hs⟩ := ih (r.note i)
      exact ⟨k + 1, by simp [noteAll, hf, hk], fun h => by simpa using hs (by simpa [noteAll, hf] using h)⟩

/-- Noting issues and then others is noting them all, unless the report is full in between. -/
theorem noteAll_append (r : Report) (is js : List Issue) :
    r.noteAll (is ++ js) =
      if (r.noteAll is).2 then r.noteAll is else (r.noteAll is).1.noteAll js := by
  induction is generalizing r with
  | nil => rfl
  | cons i is ih =>
    simp only [List.cons_append, noteAll]
    by_cases hf : (r.note i).full = true
    · simp only [hf, if_true]
    · rw [Bool.not_eq_true] at hf
      simp only [hf, Bool.false_eq_true, if_false, ih]

/-- Noting issues stops only where the report is full. -/
theorem full_of_noteAll {r : Report} {is : List Issue} (h : (r.noteAll is).2 = true) :
    (r.noteAll is).1.full = true := by
  induction is generalizing r with
  | nil => exact absurd h Bool.false_ne_true
  | cons i is ih =>
    by_cases hf : (r.note i).full = true
    · simp only [noteAll, hf, if_true]
    · simp only [noteAll, hf] at h ⊢
      exact ih h

/-- Without a limit all issues are taken. -/
theorem noteAll_of_unlimited (r : Report) (is : List Issue) (h : r.limit = none) :
    (r.noteAll is).2 = false ∧ (r.noteAll is).1.issues = r.issues ++ is := by
  induction is generalizing r with
  | nil => simp [noteAll]
  | cons i is ih =>
    have hn : (r.note i).limit = none := h
    obtain ⟨hs, hi⟩ := ih (r.note i) hn
    have hf : (r.note i).full = false := by simp [full, hn]
    simp only [noteAll, hf]
    exact ⟨hs, by simpa using hi⟩

end Report

end LoxKit
