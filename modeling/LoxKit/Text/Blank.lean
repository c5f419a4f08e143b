/-!
# Blank characters

The characters that leave no mark on a line: white space, as Unicode has the property, and the four
information separators. Some rules cut both kinds off a text and some cut white space only.

Headlines:
* `isBlank_of_isWhitespace`: every character that core calls white space is blank.
* `isBlank_iff`: a blank is white space or one of the characters from 28 to 31.
* `trimEnd_append_blank`: the blanks at the end of a text are what `trimEnd` removes.
-/

namespace LoxKit.Text

/-- Whether a character is white space in Unicode's sense. -/
def isSpace (c : Char) : Bool :=
  let n := c.toNat
  (0x09 ≤ n && n ≤ 0x0D) || n == 0x20 || n == 0x85 || n == 0xA0 || n == 0x1680 ||
    (0x2000 ≤ n && n ≤ 0x200A) || n == 0x2028 || n == 0x2029 || n == 0x202F || n == 0x205F ||
    n == 0x3000

/-- Whether a character is one of the four information separators. -/
def isSeparator (c : Char) : Bool :=
  0x1C ≤ c.toNat && c.toNat ≤ 0x1F

/-- Whether a character is blank: white space or an information separator. -/
def isBlank (c : Char) : Bool :=
  isSpace c || isSeparator c

/-- The text without the characters of a class at its end. -/
def trimEndOf (p : Char → Bool) (cs : List Char) : List Char :=
  (cs.reverse.dropWhile p).reverse

/-- The text without the characters of a class at its two ends. -/
def trimOf (p : Char → Bool) (cs : List Char) : List Char :=
  trimEndOf p (cs.dropWhile p)

/-- The text without the blanks at its end. -/
def trimEnd (cs : List Char) : List Char :=
  trimEndOf isBlank cs

/-- The text without the blanks at its two ends. -/
def trim (cs : List Char) : List Char :=
  trimOf isBlank cs

theorem isBlank_of_isWhitespace {c : Char} (h : c.isWhitespace = true) : isBlank c = true := by
  simp only [Char.isWhitespace, Bool.or_eq_true, decide_eq_true_eq] at h
  rcases h with ((rfl | rfl) | rfl) | rfl <;> decide

/-- A blank is white space or one of the characters from 28 to 31. -/
theorem isBlank_iff {c : Char} :
    isBlank c = true ↔ isSpace c = true ∨ 28 ≤ c.toNat ∧ c.toNat ≤ 31 := by
  simp [isBlank, isSeparator]

theorem trimEndOf_append {p : Char → Bool} (cs bs : List Char) (h : ∀ b ∈ bs, p b = true) :
    trimEndOf p (cs ++ bs) = trimEndOf p cs := by
  unfold trimEndOf
  rw [List.reverse_append, List.dropWhile_append_of_pos]
  intro b hb
  exact h b (List.mem_reverse.1 hb)

/-- Characters of the class at the end of a text are cut off it. -/
theorem trimOf_append {p : Char → Bool} (cs bs : List Char) (h : ∀ b ∈ bs, p b = true) :
    trimOf p (cs ++ bs) = trimOf p cs := by
  unfold trimOf
  rw [List.dropWhile_append]
  split
  · rename_i hcs
    have hbs : bs.dropWhile p = [] := by
      rw [← List.append_nil bs, List.dropWhile_append_of_pos h]
      rfl
    rw [hbs, List.isEmpty_iff.1 hcs]
  · exact trimEndOf_append _ bs h

theorem trimEnd_append_blank (cs bs : List Char) (h : ∀ b ∈ bs, isBlank b = true) :
    trimEnd (cs ++ bs) = trimEnd cs :=
  trimEndOf_append cs bs h

end LoxKit.Text
