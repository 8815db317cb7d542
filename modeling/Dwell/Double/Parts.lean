/-!
# The parts of a double

A double is not a number, an infinity, or a sign with a whole number `m` scaled by a power of two.
Rounding up, truncating and testing for a whole value are done on these parts, so their results
are exact whatever the size of the double.
-/

namespace Dwell.Double

inductive Parts where
  | nan
  | infinite (negative : Bool)
  /-- The number `m * 2 ^ q`, negated when `negative`. -/
  | finite (negative : Bool) (m : Nat) (q : Int)
  deriving DecidableEq, Repr

/-- The bit above the 52 bits of a fraction. It is not stored. -/
def hiddenBit : Nat := 0x10000000000000

/-- The parts that a 64-bit pattern stands for. -/
def Parts.ofBits (bits : Nat) : Parts :=
  let negative := bits / 0x8000000000000000 % 2 == 1
  let exponent : Nat := bits / hiddenBit % 2048
  let fraction := bits % hiddenBit
  if exponent = 2047 then
    if fraction = 0 then .infinite negative else .nan
  else if exponent = 0 then .finite negative fraction (-1074)
  else .finite negative (fraction + hiddenBit) ((exponent : Int) - 1075)

def parts (x : Float) : Parts :=
  .ofBits x.toBits.toNat

def nan : Float := 0.0 / 0.0

def infinity (negative : Bool) : Float :=
  if negative then -1.0 / 0.0 else 1.0 / 0.0

/-- The double nearest to a whole number that is not negative, the even one of two equally near. -/
def ofNat (n : Nat) : Float :=
  if n < 0x10000000000000000 then n.toUInt64.toFloat else Float.ofScientific n false 0

/-- The double nearest to a whole number. -/
def ofInt : Int → Float
  | .ofNat n => ofNat n
  | .negSucc n => -ofNat (n + 1)

/-- The whole part of `m * 2 ^ q`. -/
def wholePart (m : Nat) : Int → Nat
  | .ofNat e => m * Nat.pow 2 e
  | .negSucc e => m / Nat.pow 2 (e + 1)

/-- Whether `m * 2 ^ q` is a whole number. -/
def isWhole (m : Nat) : Int → Bool
  | .ofNat _ => true
  | .negSucc e => m % Nat.pow 2 (e + 1) == 0

/-- The least whole number that is not below a finite double. -/
def ceil? (x : Float) : Option Int :=
  match parts x with
  | .finite false m q => some (if isWhole m q then wholePart m q else wholePart m q + 1)
  | .finite true m q => some (-(wholePart m q : Int))
  | _ => none

/-- The whole number that a double is equal to. -/
def toInt? (x : Float) : Option Int :=
  match parts x with
  | .finite negative m q =>
    if isWhole m q then some (if negative then -(wholePart m q : Int) else wholePart m q) else none
  | _ => none

/-- The double without its fraction, kept within the 64-bit whole numbers; zero for no number. -/
def truncate (x : Float) : Int :=
  match parts x with
  | .nan => 0
  | .infinite negative => if negative then -0x8000000000000000 else 0x7FFFFFFFFFFFFFFF
  | .finite negative m q =>
    if negative then max (-0x8000000000000000) (-(wholePart m q : Int))
    else min 0x7FFFFFFFFFFFFFFF (wholePart m q : Int)

end Dwell.Double
