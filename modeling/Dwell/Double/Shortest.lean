import Dwell.Double.Parts

/-!
# Shortest decimals

Every double lies alone in an interval of real numbers that are read as that double, its two ends
included when its mantissa is even. `shortest` gives the decimal with the fewest digits in that
interval and, among those, the one nearest to the double. Which of two equally near ones it takes
is for the caller to say.

The search tries one digit, two, and so on up to seventeen, which always suffice. At each count
only the double's two neighbours on the decimal grid can lie in the interval, and both are tested
in whole-number arithmetic.
-/

namespace Dwell.Double

/-- Which of two equally near decimals is taken. -/
inductive Tie where
  | larger
  | even
  deriving DecidableEq, Repr

/-- The number `digits * 10 ^ exponent`. -/
structure Decimal where
  digits : Nat
  exponent : Int
  deriving DecidableEq, Repr

/-- A positive number and the ends of its interval, all over one denominator. -/
structure Interval where
  low : Nat
  value : Nat
  high : Nat
  den : Nat
  closed : Bool
  deriving Repr

/-- The number of decimal digits of `n`, none for zero. -/
def decimalLength (n : Nat) : Nat :=
  if h : n = 0 then 0 else decimalLength (n / 10) + 1
termination_by n
decreasing_by omega

/-- What is read as `m * 2 ^ q`. The gap below a power of two is half the gap above it. -/
def Interval.around (m : Nat) (q : Int) : Interval :=
  let up := Nat.pow 2 (q - 2).toNat
  let down := Nat.pow 2 (2 - q).toNat
  let low := if m = hiddenBit ∧ q ≠ -1074 then 4 * m - 1 else 4 * m - 2
  ⟨low * up, 4 * m * up, (4 * m + 2) * up, down, m % 2 == 0⟩

/-- The interval of numbers a power of ten as large, `10 ^ (-e)`. -/
def Interval.scale (i : Interval) (e : Int) : Interval :=
  let up := Nat.pow 10 (-e).toNat
  ⟨i.low * up, i.value * up, i.high * up, i.den * Nat.pow 10 e.toNat, i.closed⟩

/-- Whether the whole number `n` is read as the interval's value. -/
def Interval.contains (i : Interval) (n : Nat) : Bool :=
  if i.closed then i.low ≤ n * i.den && n * i.den ≤ i.high
  else i.low < n * i.den && n * i.den < i.high

/-- The exponent of the first decimal digit of `num / den`. -/
def leadingExponent (num den : Nat) : Int :=
  let e : Int := decimalLength num - decimalLength den
  if num * Nat.pow 10 (-e).toNat < den * Nat.pow 10 e.toNat then e - 1 else e

/-- Whether `below + rest / den` is rounded down to `below`. -/
def Tie.takesLower (tie : Tie) (below rest den : Nat) : Bool :=
  2 * rest < den || (2 * rest == den && tie == .even && below % 2 == 0)

/-- The whole number in the interval that is nearest to its value. -/
def Interval.nearest? (i : Interval) (tie : Tie) : Option Nat :=
  let below := i.value / i.den
  match i.contains below, i.contains (below + 1) with
  | true, true =>
    some (if tie.takesLower below (i.value % i.den) i.den then below else below + 1)
  | true, false => some below
  | false, true => some (below + 1)
  | false, false => none

/-- The search from `count` digits on, with `left` more counts to try. -/
def Interval.search (i : Interval) (tie : Tie) (lead : Int) (count : Nat) :
    (left : Nat) → Option Decimal
  | 0 => none
  | left + 1 =>
    let e := lead + 1 - count
    match (i.scale e).nearest? tie with
    | some n => some ⟨n, e⟩
    | none => i.search tie lead (count + 1) left

/-- A decimal without the zeros at its end. -/
def Decimal.trimZeros (d : Decimal) : Decimal :=
  if h : d.digits ≠ 0 ∧ d.digits % 10 = 0 then
    Decimal.trimZeros ⟨d.digits / 10, d.exponent + 1⟩
  else d
termination_by d.digits
decreasing_by omega

/-- The decimal with the fewest digits that is read as `m * 2 ^ q`, nearest of those. -/
def shortest (tie : Tie) (m : Nat) (q : Int) : Decimal :=
  if m = 0 then ⟨0, 0⟩
  else
    let i := Interval.around m q
    ((i.search tie (leadingExponent i.value i.den) 1 17).getD ⟨m, 0⟩).trimZeros

end Dwell.Double
