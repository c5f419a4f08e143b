import LoxKit.Decimal.Double

/-!
# Shortest decimals

The decimal with the fewest digits that reads back as a given double. Around a double lies the
interval of the numbers that round to it; its ends belong to it when the mantissa is even. On the
grids of one, two, up to seventeen significant digits the two neighbours of the double are tried:
the first grid that has one of them in the interval gives the decimal. Of two the nearer is taken,
and of two equally near the even one.

Headlines:
* `pick_mem`: what a grid gives is one of the two neighbours and lies in the interval.
* `stripZeros_value`: stripping final zeros does not change the value.
-/

namespace LoxKit.Decimal

/-- The number `significand * 10 ^ exponent`. -/
structure Scientific where
  significand : Nat
  exponent : Int
  deriving Repr, DecidableEq

/-- The decimal digits of a number, none for zero. -/
def digitCount (n : Nat) : Nat :=
  if n = 0 then 0 else (Nat.toDigits 10 n).length

/-- A positive fraction with the ends of the interval around it, over a common denominator. -/
structure Around where
  low : Nat
  value : Nat
  high : Nat
  denominator : Nat
  closed : Bool
  deriving Repr

/-- The interval of the numbers that round to the double `mantissa * 2 ^ scale`. The step below a
power of two is half the step above it, except among the smallest doubles. -/
def Around.ofDouble (mantissa : Nat) (scale : Int) : Around :=
  let below := if mantissa = Nat.pow 2 52 ∧ -1074 < scale then 1 else 2
  let up := Nat.pow 2 (scale - 2).toNat
  let down := Nat.pow 2 (2 - scale).toNat
  { low := (4 * mantissa - below) * up
    value := 4 * mantissa * up
    high := (4 * mantissa + 2) * up
    denominator := down
    closed := mantissa % 2 = 0 }

/-- The power of ten just above a fraction: the least `k` with `value < 10 ^ k`. -/
def Around.magnitude (a : Around) : Int :=
  if a.denominator ≤ a.value then digitCount (a.value / a.denominator)
  else 1 - digitCount ((a.denominator + a.value - 1) / a.value - 1)

/-- The same interval in units of `10 ^ exponent`. -/
def Around.rescale (a : Around) (exponent : Int) : Around :=
  let up := Nat.pow 10 (-exponent).toNat
  { a with
    low := a.low * up
    value := a.value * up
    high := a.high * up
    denominator := a.denominator * Nat.pow 10 exponent.toNat }

/-- Whether a whole number lies in the interval. -/
def Around.holds (a : Around) (n : Nat) : Bool :=
  let x := n * a.denominator
  if a.closed then a.low ≤ x && x ≤ a.high else a.low < x && x < a.high

/-- The whole number that stands for the fraction: one of its two neighbours in the interval. -/
def Around.pick (a : Around) : Option Nat :=
  let below := a.value / a.denominator
  let above := below + 1
  let toBelow := a.value - below * a.denominator
  let toAbove := above * a.denominator - a.value
  match a.holds below, a.holds above with
  | false, false => none
  | true, false => some below
  | false, true => some above
  | true, true =>
    if toBelow < toAbove then some below
    else if toAbove < toBelow then some above
    else if below % 2 = 0 then some below else some above

/-- A number without the zeros at its end, at most `fuel` of them, counted in the exponent. -/
def stripZeros : (fuel : Nat) → Scientific → Scientific
  | 0, s => s
  | fuel + 1, s =>
    if s.significand ≠ 0 ∧ s.significand % 10 = 0 then
      stripZeros fuel ⟨s.significand / 10, s.exponent + 1⟩
    else s

/-- The first grid with a hit, from `digits` significant digits on, with `fuel` grids to try. -/
def Around.search (a : Around) (magnitude : Int) : (fuel digits : Nat) → Option Scientific
  | 0, _ => none
  | fuel + 1, digits =>
    let exponent := magnitude - digits
    match (a.rescale exponent).pick with
    | some n => some (stripZeros digits ⟨n, exponent⟩)
    | none => a.search magnitude fuel (digits + 1)

/-- The decimal with the fewest digits that reads back as the double `mantissa * 2 ^ scale`. -/
def shortest (mantissa : Nat) (scale : Int) : Scientific :=
  if mantissa = 0 then ⟨0, 0⟩
  else
    let a := Around.ofDouble mantissa scale
    (a.search a.magnitude 17 1).getD ⟨a.value, 0⟩

/-- What a grid gives is one of the two neighbours and lies in the interval. -/
theorem Around.pick_mem {a : Around} {n : Nat} (h : a.pick = some n) :
    (n = a.value / a.denominator ∨ n = a.value / a.denominator + 1) ∧ a.holds n = true := by
  unfold Around.pick at h
  dsimp only at h
  split at h
  · simp at h
  · simp only [Option.some.injEq] at h
    subst h
    exact ⟨.inl rfl, by assumption⟩
  · simp only [Option.some.injEq] at h
    subst h
    exact ⟨.inr rfl, by assumption⟩
  · split at h
    · simp only [Option.some.injEq] at h
      subst h
      exact ⟨.inl rfl, by assumption⟩
    · split at h
      · simp only [Option.some.injEq] at h
        subst h
        exact ⟨.inr rfl, by assumption⟩
      · split at h <;> simp only [Option.some.injEq] at h <;> subst h
        · exact ⟨.inl rfl, by assumption⟩
        · exact ⟨.inr rfl, by assumption⟩

/-- Stripping final zeros does not change the value. -/
theorem stripZeros_value (fuel : Nat) (s : Scientific) :
    ∃ k : Nat, (stripZeros fuel s).exponent = s.exponent + k ∧
      s.significand = (stripZeros fuel s).significand * Nat.pow 10 k := by
  induction fuel generalizing s with
  | zero => exact ⟨0, by simp [stripZeros], by simp [stripZeros]⟩
  | succ fuel ih =>
    unfold stripZeros
    split
    · rename_i h
      obtain ⟨k, he, hv⟩ := ih ⟨s.significand / 10, s.exponent + 1⟩
      refine ⟨k + 1, by rw [he]; simp only [Int.natCast_add]; omega, ?_⟩
      have : s.significand = s.significand / 10 * 10 := by omega
      rw [Nat.pow_eq, Nat.pow_succ, ← Nat.mul_assoc, ← Nat.pow_eq, ← hv]
      exact this
    · exact ⟨0, by simp, by simp⟩

end LoxKit.Decimal
