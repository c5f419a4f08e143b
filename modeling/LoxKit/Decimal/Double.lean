/-!
# Double precision numbers

A double is taken apart into its sign, an integer mantissa and a power of two, and a decimal
numeral of digits with an optional fraction is read as the nearest double.

Headline:
* `Double.mantissa_lt`: a mantissa has at most 53 bits.
-/

namespace LoxKit.Decimal

/-- What the bits of a double say: its value is `± mantissa * 2 ^ scale`, unless it is infinite or
no number. -/
inductive Double where
  | nan
  | infinite (negative : Bool)
  | finite (negative : Bool) (mantissa : Nat) (scale : Int)
  deriving Repr, DecidableEq

/-- Takes the 64 bits of a double apart. -/
def Double.ofBits (bits : Nat) : Double :=
  let negative := decide (Nat.pow 2 63 ≤ bits)
  let exponent : Nat := bits / Nat.pow 2 52 % Nat.pow 2 11
  let fraction : Nat := bits % Nat.pow 2 52
  if exponent = 2047 then if fraction = 0 then .infinite negative else .nan
  else if exponent = 0 then .finite negative fraction (-1074)
  else .finite negative (Nat.pow 2 52 + fraction) ((exponent : Int) - 1075)

/-- Takes a double apart. -/
def Double.ofFloat (x : Float) : Double :=
  .ofBits x.toBits.toNat

/-- The number that a run of decimal digits stands for. -/
def digitsValue (ds : List Char) : Nat :=
  ds.foldl (fun n d => 10 * n + (d.toNat - 0x30)) 0

/-- The double nearest to a numeral, that is digits with at most one point among them. -/
def readNumeral (cs : List Char) : Float :=
  let whole := cs.takeWhile (· != '.')
  let fraction := (cs.dropWhile (· != '.')).drop 1
  Float.ofScientific (digitsValue (whole ++ fraction)) true fraction.length

/-- A mantissa has at most 53 bits. -/
theorem Double.mantissa_lt {bits : Nat} {negative : Bool} {mantissa : Nat} {scale : Int}
    (h : Double.ofBits bits = .finite negative mantissa scale) : mantissa < Nat.pow 2 53 := by
  have hf : bits % Nat.pow 2 52 < Nat.pow 2 52 := Nat.mod_lt _ (by decide)
  unfold Double.ofBits at h
  dsimp only at h
  split at h
  · split at h <;> simp at h
  · split at h <;> simp only [Double.finite.injEq, Nat.pow_eq] at h hf ⊢ <;> omega

end LoxKit.Decimal
