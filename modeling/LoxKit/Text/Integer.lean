import LoxKit.Text.Blank

/-!
# Written integers

The integers that a text stands for: white space, a sign or none, decimal digits of any script with
single underscores between them, and white space. Information separators are no white space here.
No more than 4300 digits are read.

Headlines:
* `readDigits_underscore_first`: an underscore stands only behind a digit.
* `readInteger_append_space`: white space at the end does not matter.
-/

namespace LoxKit.Text

/-- The zeros of the scripts, each followed by the nine other digits. -/
def zeros : List Nat :=
  [0x30, 0x660, 0x6F0, 0x7C0, 0x966, 0x9E6, 0xA66, 0xAE6, 0xB66, 0xBE6, 0xC66, 0xCE6, 0xD66, 0xDE6,
    0xE50, 0xED0, 0xF20, 0x1040, 0x1090, 0x17E0, 0x1810, 0x1946, 0x19D0, 0x1A80, 0x1A90, 0x1B50,
    0x1BB0, 0x1C40, 0x1C50, 0xA620, 0xA8D0, 0xA900, 0xA9D0, 0xA9F0, 0xAA50, 0xABF0, 0xFF10,
    0x104A0, 0x10D30, 0x11066, 0x110F0, 0x11136, 0x111D0, 0x112F0, 0x11450, 0x114D0, 0x11650,
    0x116C0, 0x11730, 0x118E0, 0x11950, 0x11C50, 0x11D50, 0x11DA0, 0x16A60, 0x16AC0, 0x16B50,
    0x1D7CE, 0x1D7D8, 0x1D7E2, 0x1D7EC, 0x1D7F6, 0x1E140, 0x1E2F0, 0x1E950, 0x1FBF0]

/-- The value of a decimal digit of any script. -/
def digit? (c : Char) : Option Nat :=
  (zeros.find? fun z => z ≤ c.toNat && c.toNat < z + 10).map (c.toNat - ·)

/-- The most digits that are read. -/
def maxDigits : Nat := 4300

/-- Digits with single underscores between them; `between` says that a digit came just before. -/
def readDigits (between : Bool) : List Char → Option (List Nat)
  | [] => if between then some [] else none
  | c :: cs =>
    if c = '_' then if between then readDigits false cs else none
    else
      match digit? c with
      | none => none
      | some d => (readDigits true cs).map (d :: ·)

/-- A natural number without sign. -/
def readNatural (cs : List Char) : Option Nat :=
  match readDigits false cs with
  | none => none
  | some ds =>
    if ds.length ≤ maxDigits then some (ds.foldl (fun n d => 10 * n + d) 0) else none

/-- The integer that a text stands for. -/
def readInteger (cs : List Char) : Option Int :=
  match trimOf isSpace cs with
  | '-' :: rest => (readNatural rest).map fun n => -(n : Int)
  | '+' :: rest => (readNatural rest).map Int.ofNat
  | rest => (readNatural rest).map Int.ofNat

/-- Whether a text looks like a negative number, with or without a fraction. -/
def isNegativeNumeral (cs : List Char) : Bool :=
  let isDigit (c : Char) : Bool := (digit? c).isSome
  match cs with
  | '-' :: rest =>
    let rest := if rest.getLast? = some '\n' then rest.dropLast else rest
    let whole := rest.takeWhile isDigit
    match rest.dropWhile isDigit with
    | [] => !whole.isEmpty
    | '.' :: fraction => !fraction.isEmpty && fraction.all isDigit
    | _ => false
  | _ => false

theorem readDigits_underscore_first (cs : List Char) : readDigits false ('_' :: cs) = none := by
  simp [readDigits]

/-- White space at the end of a text does not change the integer it stands for. -/
theorem readInteger_append_space (cs ws : List Char) (h : ∀ w ∈ ws, isSpace w = true) :
    readInteger (cs ++ ws) = readInteger cs := by
  simp only [readInteger, trimOf_append cs ws h]

end LoxKit.Text
