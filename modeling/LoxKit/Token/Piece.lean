import LoxKit.Token.Basic

/-!
# Pieces of a text

A text is cut into pieces from left to right: blanks, newlines, comments, strings, numbers, words,
symbols and stray characters. Each piece is as long as its kind allows. A block comment or a string
that is not closed reaches to the end of the text.

Headlines:
* `Piece.next_text`: the first piece and what follows it make up the text.
* `pieces_flatten`: the pieces of a text make up the text.
-/

namespace LoxKit

/-- A stretch of text that is read as one. -/
inductive Piece where
  /-- A space, a tab or a carriage return. -/
  | blank (c : Char)
  /-- The end of a line. -/
  | newline
  /-- A comment up to the end of its line; `body` is what follows the two slashes. -/
  | lineComment (body : List Char)
  /-- A comment from `/*` on; `body` is what follows, up to the closing mark if there is one. -/
  | blockComment (body : List Char) (closed : Bool)
  /-- A string with both its quotes. -/
  | string (body : List Char)
  /-- A string without closing quote. -/
  | openString (body : List Char)
  /-- Digits, and more digits behind a point unless `fraction` is empty. -/
  | number (whole fraction : List Char)
  /-- An identifier or a keyword. -/
  | word (chars : List Char)
  /-- Punctuation or an operator. -/
  | symbol (s : Symbol)
  /-- A character that starts nothing. -/
  | stray (c : Char)
  deriving Repr, DecidableEq

namespace Piece

/-- The characters of a piece. -/
def text : Piece → List Char
  | blank c => [c]
  | newline => ['\n']
  | lineComment body => '/' :: '/' :: body
  | blockComment body closed => '/' :: '*' :: body ++ if closed then ['*', '/'] else []
  | string body => '"' :: body ++ ['"']
  | openString body => '"' :: body
  | number whole fraction => whole ++ if fraction = [] then [] else '.' :: fraction
  | word chars => chars
  | symbol s => s.text.toList
  | stray c => [c]

/-- Whether a word can start with the character: an ASCII letter or an underscore. -/
def startsWord (c : Char) : Bool :=
  c.isAlpha || c == '_'

/-- Whether a word can go on with the character. -/
def continuesWord (c : Char) : Bool :=
  startsWord c || c.isDigit

/-- What stands before the first `*/`, and what behind it. -/
def splitBlockEnd : List Char → Option (List Char × List Char)
  | [] => none
  | '*' :: '/' :: rest => some ([], rest)
  | c :: rest => (splitBlockEnd rest).map fun (body, after) => (c :: body, after)

/-- What stands before the first quote, and what behind it. -/
def splitQuote : List Char → Option (List Char × List Char)
  | [] => none
  | c :: rest =>
    if c = '"' then some ([], rest)
    else (splitQuote rest).map fun (body, after) => (c :: body, after)

/-- The digits behind a point that a digit follows, and what stands behind them. -/
def splitFraction : List Char → List Char × List Char
  | '.' :: d :: rest =>
    if d.isDigit then (d :: rest.takeWhile Char.isDigit, rest.dropWhile Char.isDigit)
    else ([], '.' :: d :: rest)
  | cs => ([], cs)

/-- The symbol that a character is on its own, and the one that it is with an equals sign. -/
def symbolOf? : Char → Option (Symbol × Option Symbol)
  | '(' => some (.leftParen, none)
  | ')' => some (.rightParen, none)
  | '{' => some (.leftBrace, none)
  | '}' => some (.rightBrace, none)
  | ',' => some (.comma, none)
  | '.' => some (.dot, none)
  | '-' => some (.minus, none)
  | '+' => some (.plus, none)
  | ';' => some (.semicolon, none)
  | '*' => some (.star, none)
  | '/' => some (.slash, none)
  | '!' => some (.bang, some .bangEqual)
  | '=' => some (.equal, some .equalEqual)
  | '<' => some (.less, some .lessEqual)
  | '>' => some (.greater, some .greaterEqual)
  | _ => none

/-- The piece of a character that starts neither a comment nor a string, and what follows it. -/
def nextPlain (c : Char) (cs : List Char) : Piece × List Char :=
  match symbolOf? c with
  | some (alone, none) => (.symbol alone, cs)
  | some (alone, some withEquals) =>
    match cs with
    | '=' :: rest => (.symbol withEquals, rest)
    | _ => (.symbol alone, cs)
  | none =>
    if c = ' ' ∨ c = '\t' ∨ c = '\r' then (.blank c, cs)
    else if c = '\n' then (.newline, cs)
    else if c.isDigit then
      let (fraction, rest) := splitFraction (cs.dropWhile Char.isDigit)
      (.number (c :: cs.takeWhile Char.isDigit) fraction, rest)
    else if startsWord c then (.word (c :: cs.takeWhile continuesWord), cs.dropWhile continuesWord)
    else (.stray c, cs)

/-- The first piece of a text that is not empty, and what follows it. -/
def next : Char → List Char → Piece × List Char
  | '/', '/' :: cs => (.lineComment (cs.takeWhile (· != '\n')), cs.dropWhile (· != '\n'))
  | '/', '*' :: cs =>
    match splitBlockEnd cs with
    | some (body, rest) => (.blockComment body true, rest)
    | none => (.blockComment cs false, [])
  | '"', cs =>
    match splitQuote cs with
    | some (body, rest) => (.string body, rest)
    | none => (.openString cs, [])
  | c, cs => nextPlain c cs

theorem splitBlockEnd_eq_some {cs body rest : List Char} (h : splitBlockEnd cs = some (body, rest)) :
    cs = body ++ '*' :: '/' :: rest := by
  fun_induction splitBlockEnd cs generalizing body rest with
  | case1 => simp at h
  | case2 r =>
    simp only [Option.some.injEq, Prod.mk.injEq] at h
    rw [← h.1, ← h.2, List.nil_append]
  | case3 c r _ ih =>
    obtain ⟨⟨b, a⟩, hb, he⟩ := Option.map_eq_some_iff.1 h
    simp only [Prod.mk.injEq] at he
    rw [← he.1, ← he.2, ih hb, List.cons_append]

theorem splitQuote_eq_some {cs body rest : List Char} (h : splitQuote cs = some (body, rest)) :
    cs = body ++ '"' :: rest := by
  fun_induction splitQuote cs generalizing body rest with
  | case1 => simp at h
  | case2 r =>
    simp only [Option.some.injEq, Prod.mk.injEq] at h
    rw [← h.1, ← h.2, List.nil_append]
  | case3 c r _ ih =>
    obtain ⟨⟨b, a⟩, hb, he⟩ := Option.map_eq_some_iff.1 h
    simp only [Prod.mk.injEq] at he
    rw [← he.1, ← he.2, ih hb, List.cons_append]

theorem splitFraction_text (cs : List Char) :
    (if (splitFraction cs).1 = [] then [] else '.' :: (splitFraction cs).1) ++ (splitFraction cs).2
      = cs := by
  fun_cases splitFraction cs with
  | case1 d rest hd => simp
  | case2 d rest hd => simp
  | case3 cs h => simp

theorem symbolOf?_text {c : Char} {alone : Symbol} {more : Option Symbol}
    (h : symbolOf? c = some (alone, more)) :
    alone.text.toList = [c] ∧ ∀ s, more = some s → s.text.toList = [c, '='] := by
  unfold symbolOf? at h
  split at h <;> simp only [Option.some.injEq, Prod.mk.injEq, reduceCtorEq] at h <;>
    obtain ⟨rfl, rfl⟩ := h <;> exact ⟨rfl, by rintro s ⟨⟩ <;> rfl⟩

theorem nextPlain_text (c : Char) (cs : List Char) :
    (nextPlain c cs).1.text ++ (nextPlain c cs).2 = c :: cs := by
  unfold nextPlain
  split
  · rename_i alone h
    simp [text, (symbolOf?_text h).1]
  · rename_i alone withEquals h
    split
    · simp [text, (symbolOf?_text h).2 _ rfl]
    · simp [text, (symbolOf?_text h).1]
  · split
    · simp [text]
    · split
      · rename_i h
        simp [text, h]
      · split
        · simp only [text, List.cons_append, List.append_assoc, List.cons.injEq, true_and]
          rw [splitFraction_text, List.takeWhile_append_dropWhile]
        · split
          · simp [text]
          · simp [text]

/-- The first piece and what follows it make up the text. -/
theorem next_text (c : Char) (cs : List Char) :
    (next c cs).1.text ++ (next c cs).2 = c :: cs := by
  fun_cases next c cs with
  | case1 cs => simp [text]
  | case2 cs body rest h => simp [text, splitBlockEnd_eq_some h]
  | case3 cs h => simp [text]
  | case4 cs body rest h => simp [text, splitQuote_eq_some h]
  | case5 cs h => simp [text]
  | case6 c cs => exact nextPlain_text c cs

theorem nextPlain_text_ne_nil (c : Char) (cs : List Char) : (nextPlain c cs).1.text ≠ [] := by
  unfold nextPlain
  split
  · rename_i alone h
    simp [text, (symbolOf?_text h).1]
  · rename_i alone withEquals h
    split
    · simp [text, (symbolOf?_text h).2 _ rfl]
    · simp [text, (symbolOf?_text h).1]
  · split
    · simp [text]
    · split
      · simp [text]
      · split
        · simp [text]
        · split <;> simp [text]

/-- The first piece is not empty. -/
theorem next_text_ne_nil (c : Char) (cs : List Char) : (next c cs).1.text ≠ [] := by
  fun_cases next c cs with
  | case1 cs => simp [text]
  | case2 cs body rest h => simp [text]
  | case3 cs h => simp [text]
  | case4 cs body rest h => simp [text]
  | case5 cs h => simp [text]
  | case6 c cs => exact nextPlain_text_ne_nil c cs

theorem next_rest_lt (c : Char) (cs : List Char) : (next c cs).2.length < (c :: cs).length := by
  have h := congrArg List.length (next_text c cs)
  have hne := List.length_pos_iff.2 (next_text_ne_nil c cs)
  rw [List.length_append] at h
  omega

end Piece

/-- The pieces of a text. -/
def pieces : List Char → List Piece
  | [] => []
  | c :: cs => (Piece.next c cs).1 :: pieces (Piece.next c cs).2
termination_by cs => cs.length
decreasing_by exact Piece.next_rest_lt c cs

/-- The pieces of a text make up the text. -/
theorem pieces_flatten (cs : List Char) : ((pieces cs).map Piece.text).flatten = cs := by
  fun_induction pieces cs with
  | case1 => rfl
  | case2 c cs ih => rw [List.map_cons, List.flatten_cons, ih, Piece.next_text]

end LoxKit
