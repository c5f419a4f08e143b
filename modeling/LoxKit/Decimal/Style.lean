import LoxKit.Decimal.Shortest

/-!
# Written numbers

How a double is written. A `Style` holds the decisions: which numbers are written positionally,
how wide an exponent is at least, and whether a whole number keeps a zero after its point.

Headlines:
* `source`: numbers as they stand in a syntax tree, `3.0`.
* `shown`: numbers as a program prints them, `3`.
-/

namespace LoxKit.Decimal

/-- How a number is laid out. The exponent of a number is that of its first digit. -/
structure Style where
  /-- The least exponent written positionally. -/
  lowest : Int
  /-- The least exponent above those written positionally. -/
  beyond : Int
  /-- The least number of digits of a written exponent. -/
  exponentWidth : Nat
  /-- Whether a whole number written positionally ends in a point and a zero. -/
  wholePoint : Bool

/-- Numbers as they stand in a syntax tree: positional from a ten thousandth to sixteen digits. -/
def source : Style := ⟨-4, 16, 2, true⟩

/-- Numbers as a program prints them: like those in a syntax tree, but `3` and not `3.0`. -/
def shown : Style := { source with wholePoint := false }

/-- The digits of a number, padded with zeros in front. -/
def padded (width n : Nat) : List Char :=
  let ds := Nat.toDigits 10 n
  List.replicate (width - ds.length) '0' ++ ds

/-- Digits with a point behind the first `point` of them, where `point` may lie outside them. -/
def Style.positional (style : Style) (ds : List Char) (point : Int) : List Char :=
  if point ≤ 0 then '0' :: '.' :: List.replicate (-point).toNat '0' ++ ds
  else if ds.length ≤ point.toNat then
    ds ++ List.replicate (point.toNat - ds.length) '0' ++ if style.wholePoint then ['.', '0'] else []
  else ds.take point.toNat ++ '.' :: ds.drop point.toNat

/-- Digits with a point behind the first and the exponent of the first behind the last. -/
def Style.exponential (style : Style) (ds : List Char) (exponent : Int) : List Char :=
  let head := if ds.length ≤ 1 then ds else ds.take 1 ++ '.' :: ds.drop 1
  let sign := if exponent < 0 then '-' else '+'
  head ++ 'e' :: sign :: padded style.exponentWidth exponent.natAbs

/-- A decimal as written in a style. -/
def Style.write (style : Style) (s : Scientific) : List Char :=
  let ds := Nat.toDigits 10 s.significand
  let point := ds.length + s.exponent
  let exponent := point - 1
  if style.lowest ≤ exponent ∧ exponent < style.beyond then style.positional ds point
  else style.exponential ds exponent

/-- The text of a double taken apart, with the fewest digits that read back. -/
def Style.writeDouble (style : Style) : Double → List Char
  | .nan => ['n', 'a', 'n']
  | .infinite negative => (if negative then ['-'] else []) ++ ['i', 'n', 'f']
  | .finite negative mantissa scale =>
    (if negative then ['-'] else []) ++ style.write (shortest mantissa scale)

/-- The text of a double. -/
def Style.text (style : Style) (x : Float) : String :=
  String.ofList (style.writeDouble (.ofFloat x))

end LoxKit.Decimal
