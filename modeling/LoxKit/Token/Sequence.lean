import LoxKit.Issue
import LoxKit.Token.Piece

/-!
# The tokens of a text

Every piece of a text that is neither blank nor comment nor fault gives one token, and every
faulty piece gives one issue. A token and an issue carry the offset of the first character of
their piece and the line of its last one.

Headlines:
* `Tokens.ofPieces_append`: reading goes on behind the pieces read so far.
* `Tokens.ofText_ending`: the end of the text is the place behind its last character.
-/

namespace LoxKit

/-- The place behind a stretch of text. -/
def Pos.after (p : Pos) (cs : List Char) : Pos :=
  ⟨p.line + cs.count '\n', p.offset + cs.length⟩

/-- Where a text begins. -/
def Pos.start : Pos :=
  ⟨1, 0⟩

namespace Piece

/-- The place that is named for a piece: its first character and its last line. -/
def mark (p : Piece) (start : Pos) : Pos :=
  ⟨(start.after p.text).line, start.offset⟩

/-- The kind of token that a piece is, if it is one. -/
def kind? : Piece → Option Kind
  | string _ => some .string
  | number _ _ => some .number
  | word chars =>
    match Keyword.ofWord? (String.ofList chars) with
    | some k => some (.keyword k)
    | none => some .identifier
  | symbol s => some (.symbol s)
  | _ => none

/-- The token that a piece is, if it is one. -/
def token? (p : Piece) (start : Pos) : Option Token :=
  p.kind?.map fun kind => ⟨kind, String.ofList p.text, p.mark start⟩

/-- What is wrong with a piece, if anything is. -/
def complaint? : Piece → Option Complaint
  | openString _ => some .unterminatedString
  | stray c => some (.unexpectedCharacter c)
  | _ => none

/-- The issue with a piece, if there is one. -/
def issue? (p : Piece) (start : Pos) : Option Issue :=
  p.complaint?.map fun complaint => .lexical (p.mark start) complaint

end Piece

/-- What a text reads as: its tokens, the token that marks its end, and the issues with it. -/
structure Tokens where
  tokens : List Token
  ending : Token
  issues : List Issue
  deriving Repr, DecidableEq

namespace Tokens

/-- The token that marks the end of a text. -/
def endingAt (p : Pos) : Token :=
  ⟨.eof, "", p⟩

/-- Reads pieces from a place on. -/
def ofPieces (start : Pos) : List Piece → Tokens
  | [] => ⟨[], endingAt start, []⟩
  | p :: ps =>
    let rest := ofPieces (start.after p.text) ps
    { rest with
      tokens := (p.token? start).toList ++ rest.tokens
      issues := (p.issue? start).toList ++ rest.issues }

/-- Reads a text. -/
def ofText (text : String) : Tokens :=
  ofPieces .start (pieces text.toList)

/-- All the tokens, with the one that marks the end. -/
def all (t : Tokens) : List Token :=
  t.tokens ++ [t.ending]

theorem after_append (p : Pos) (xs ys : List Char) :
    p.after (xs ++ ys) = (p.after xs).after ys := by
  simp only [Pos.after, List.count_append, List.length_append, Nat.add_assoc]

/-- Reading goes on behind the pieces read so far. -/
theorem ofPieces_append (start : Pos) (ps qs : List Piece) :
    ofPieces start (ps ++ qs) =
      let first := ofPieces start ps
      let rest := ofPieces (start.after (ps.map Piece.text).flatten) qs
      { rest with tokens := first.tokens ++ rest.tokens, issues := first.issues ++ rest.issues } := by
  induction ps generalizing start with
  | nil => simp [ofPieces, Pos.after]
  | cons p ps ih =>
    simp only [List.cons_append, ofPieces, ih, List.map_cons, List.flatten_cons, after_append,
      List.append_assoc]

theorem ofPieces_ending (start : Pos) (ps : List Piece) :
    (ofPieces start ps).ending = endingAt (start.after (ps.map Piece.text).flatten) := by
  induction ps generalizing start with
  | nil => simp [ofPieces, Pos.after]
  | cons p ps ih => simp only [ofPieces, ih, List.map_cons, List.flatten_cons, after_append]

/-- The end of a text is the place behind its last character. -/
theorem ofText_ending (text : String) :
    (ofText text).ending = endingAt (Pos.start.after text.toList) := by
  rw [ofText, ofPieces_ending, pieces_flatten]

end Tokens

end LoxKit
