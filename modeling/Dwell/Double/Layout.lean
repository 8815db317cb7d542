import Dwell.Double.Shortest

/-!
# How doubles are written

A `Layout` settles what the shortest digits leave open: which of two equally near decimals is
taken, between which exponents a number is written out in full, whether a whole number keeps a
point, and how exponents, infinities and values that are no number look. Each text the program
writes has one layout.
-/

namespace Dwell.Double

structure Layout where
  tie : Tie
  /-- Whether a number whose first digit has this exponent is written without an exponent. -/
  positional : Int → Bool
  /-- Whether a whole number is written with `.0`. -/
  point : Bool
  /-- Whether exponents that are not negative carry a sign. -/
  plus : Bool
  exponentWidth : Nat
  nan : String
  infinity : Bool → String

/-- Every digit is written out, and a whole number has no point. Rules and log lines use this. -/
def Layout.plain : Layout where
  tie := .larger
  positional _ := true
  point := false
  plus := false
  exponentWidth := 1
  nan := "NaN"
  infinity negative := if negative then "-inf" else "inf"

/-- Numbers from `1e-4` up to `1e16` are written out. Descriptions of machines use this. -/
def Layout.described : Layout where
  tie := .larger
  positional e := -4 ≤ e && e < 16
  point := true
  plus := false
  exponentWidth := 1
  nan := "NaN"
  infinity negative := if negative then "-inf" else "inf"

/-- Numbers from `1e-5` up to `1e16` are written out. Configuration files use this. -/
def Layout.stored : Layout where
  tie := .even
  positional e := -5 ≤ e && e < 16
  point := true
  plus := false
  exponentWidth := 1
  nan := ".nan"
  infinity negative := if negative then "-.inf" else ".inf"

/-- Numbers from `1e-5` up to `1e16` are written out, other exponents have a sign and two digits,
and what is not finite is `null`. Reports use this. -/
def Layout.reported : Layout where
  tie := .even
  positional e := -5 ≤ e && e < 16
  point := true
  plus := true
  exponentWidth := 2
  nan := "null"
  infinity _ := "null"

/-- A text filled up with zeros on the left. -/
def padZeros (width : Nat) (s : List Char) : List Char :=
  List.replicate (width - s.length) '0' ++ s

/-- The decimal `0.d₁d₂… * 10 ^ point` written out in full. -/
def writeOut (layout : Layout) (digits : List Char) (point : Int) : List Char :=
  if point ≤ 0 then "0.".toList ++ List.replicate (-point).toNat '0' ++ digits
  else if digits.length ≤ point.toNat then
    digits ++ List.replicate (point.toNat - digits.length) '0'
      ++ if layout.point then ".0".toList else []
  else digits.take point.toNat ++ '.' :: digits.drop point.toNat

/-- The decimal `d₁.d₂… * 10 ^ e` written with an exponent. -/
def writeScientific (layout : Layout) (digits : List Char) (e : Int) : List Char :=
  digits.take 1 ++ (if digits.length ≤ 1 then [] else '.' :: digits.drop 1) ++ ['e']
    ++ (if e < 0 then ['-'] else if layout.plus then ['+'] else [])
    ++ padZeros layout.exponentWidth (Nat.toDigits 10 e.natAbs)

/-- A decimal that is not negative, as a layout writes it. -/
def Layout.decimal (layout : Layout) (d : Decimal) : List Char :=
  let digits := Nat.toDigits 10 d.digits
  let e := d.exponent + digits.length - 1
  if d.digits = 0 ∨ layout.positional e then writeOut layout digits (e + 1)
  else writeScientific layout digits e

def Layout.write (layout : Layout) (x : Float) : String :=
  match parts x with
  | .nan => layout.nan
  | .infinite negative => layout.infinity negative
  | .finite negative m q =>
    .ofList ((if negative then ['-'] else []) ++ layout.decimal (shortest layout.tie m q))

/-- A double as rules and log lines show it. -/
def text (x : Float) : String :=
  Layout.plain.write x

end Dwell.Double
