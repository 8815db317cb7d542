import Dwell.Double.Parts

/-!
# Numerals

The texts that denote a double: an optional sign, then digits with at most one point and an
optional exponent, or one of the words `inf`, `infinity` and `nan` in any case. The double is the
one nearest to the number written.
-/

namespace Dwell.Double

/-- The value of a row of digits. -/
def digitsValue (s : List Char) : Nat :=
  s.foldl (fun n c => 10 * n + (c.toNat - '0'.toNat)) 0

/-- A text's sign, and what follows it. -/
def splitSign : List Char → Bool × List Char
  | '-' :: s => (true, s)
  | '+' :: s => (false, s)
  | s => (false, s)

/-- The digits that a text starts with, and what follows them. -/
def splitDigits (s : List Char) : List Char × List Char :=
  s.span Char.isDigit

/-- The exponent written at the end of a numeral; zero when the numeral has none. -/
def readExponent? : List Char → Option Int
  | [] => some 0
  | c :: s =>
    if c = 'e' ∨ c = 'E' then
      let (negative, s) := splitSign s
      if s ≠ [] ∧ s.all Char.isDigit then
        some (if negative then -(digitsValue s : Int) else digitsValue s)
      else none
    else none

/-- The double nearest to `m * 10 ^ e`, where `m` has `size` digits. Beyond the exponents that a
double can have it is infinite or zero. -/
def ofDecimal (m size : Nat) (e : Int) : Float :=
  if m = 0 then 0.0
  else if 400 < e + size then infinity false
  else if e + size < -400 then 0.0
  else Float.ofScientific m (e < 0) e.natAbs

/-- The double that an unsigned numeral in digits denotes. -/
def readDigits? (s : List Char) : Option Float :=
  let (whole, s) := splitDigits s
  let (fraction, s) :=
    match s with
    | '.' :: s => splitDigits s
    | s => ([], s)
  if whole = [] ∧ fraction = [] then none
  else
    let digits := (whole ++ fraction).dropWhile (· == '0')
    (readExponent? s).map fun e =>
      ofDecimal (digitsValue digits) digits.length (e - fraction.length)

/-- The double that an unsigned numeral denotes. -/
def readUnsigned? (s : List Char) : Option Float :=
  let word := String.ofList (s.map Char.toLower)
  if word = "inf" ∨ word = "infinity" then some (infinity false)
  else if word = "nan" then some nan
  else readDigits? s

/-- The double that a numeral denotes. -/
def read? (s : List Char) : Option Float :=
  let (negative, s) := splitSign s
  (readUnsigned? s).map fun x => if negative then -x else x

end Dwell.Double
