import LoxKit.Text.Printable

/-!
# Quoted text

The quoted form of a text, in which every character can be seen. The quotes are single, unless the
text holds a single quote and no double one. Inside, a backslash and the quote in use stand behind
a backslash, line feed, carriage return and tab have letters of their own, and any other character
that is not printable is written by its code point in two, four or eight hexadecimal digits.

Headlines:
* `quoteFor_eq_double_iff`: when the quotes are double.
* `escape_printable`: a printable character that is neither the quote nor a backslash is itself.
-/

namespace LoxKit.Text

/-- The lower-case hexadecimal digit of a number below sixteen. -/
def hexDigit (n : Nat) : Char :=
  if n < 10 then Char.ofNat (0x30 + n) else Char.ofNat (0x61 + n - 10)

/-- The last `width` hexadecimal digits of a number. -/
def hexDigits : (width : Nat) → Nat → List Char
  | 0, _ => []
  | width + 1, n => hexDigits width (n / 16) ++ [hexDigit (n % 16)]

/-- The quote that goes around a text: single, unless only the double one is absent from it. -/
def quoteFor (cs : List Char) : Char :=
  if cs.contains '\'' && !cs.contains '"' then '"' else '\''

/-- A character as it stands between quotes. -/
def escape (quote c : Char) : List Char :=
  if c = '\\' ∨ c = quote then ['\\', c]
  else if c = '\n' then ['\\', 'n']
  else if c = '\r' then ['\\', 'r']
  else if c = '\t' then ['\\', 't']
  else if isPrintable c then [c]
  else if c.toNat < 0x100 then '\\' :: 'x' :: hexDigits 2 c.toNat
  else if c.toNat < 0x10000 then '\\' :: 'u' :: hexDigits 4 c.toNat
  else '\\' :: 'U' :: hexDigits 8 c.toNat

/-- The quoted form of a text. -/
def quoted (text : String) : String :=
  let cs := text.toList
  let quote := quoteFor cs
  String.ofList (quote :: cs.flatMap (escape quote) ++ [quote])

theorem quoteFor_eq_double_iff {cs : List Char} :
    quoteFor cs = '"' ↔ '\'' ∈ cs ∧ '"' ∉ cs := by
  simp [quoteFor]

theorem escape_printable {quote c : Char} (hc : isPrintable c = true) (hq : c ≠ quote)
    (hb : c ≠ '\\') : escape quote c = [c] := by
  have low : ∀ d : Char, d.toNat < 0x20 → c ≠ d := by
    rintro d hd rfl
    rw [isPrintable_of_lt (by omega)] at hc
    simp at hc
    omega
  have hn : c ≠ '\n' := low _ (by decide)
  have hr : c ≠ '\r' := low _ (by decide)
  have ht : c ≠ '\t' := low _ (by decide)
  simp [escape, hc, hq, hb, hn, hr, ht]

end LoxKit.Text
