/-!
# Digits

Whole numbers as rows of digits in a base up to 36, and signed decimal integers of 64 bits.
-/

namespace Dwell.Text

/-- The value of a digit; letters of either case stand for the values from ten on. -/
def digitValue? (base : Nat) (c : Char) : Option Nat :=
  let v :=
    if c.isDigit then c.toNat - '0'.toNat
    else if 'a' ≤ c ∧ c ≤ 'z' then c.toNat - 'a'.toNat + 10
    else if 'A' ≤ c ∧ c ≤ 'Z' then c.toNat - 'A'.toNat + 10
    else base
  if v < base then some v else none

/-- The number that a row of digits denotes. -/
def natural? (base : Nat) (s : List Char) : Option Nat :=
  if s = [] then none
  else s.foldl (fun n c => do return base * (← n) + (← digitValue? base c)) (some 0)

/-- Whether a whole number is in the signed 64-bit range. -/
def isSigned (n : Int) : Bool :=
  -0x8000000000000000 ≤ n && n ≤ 0x7FFFFFFFFFFFFFFF

/-- The signed 64-bit integer that a text denotes: decimal digits behind at most one sign. -/
def integer? (s : List Char) : Option Int :=
  let n : Option Int := match s with
    | '-' :: s => (natural? 10 s).map fun n => -(n : Int)
    | '+' :: s => (natural? 10 s).map (↑·)
    | s => (natural? 10 s).map (↑·)
  n.filter isSigned

theorem isSigned_of_integer? {s : List Char} {n : Int} (h : integer? s = some n) :
    isSigned n := by
  simp only [integer?, Option.filter_eq_some_iff] at h
  exact h.2

end Dwell.Text
