import Dwell.Double.Numeral
import Dwell.Text.Digits
import Dwell.Yaml.Fault
import Dwell.Yaml.Node

/-!
# What plain scalars denote

A plain scalar denotes nothing, a truth value, a number, or else its own text. Whole numbers may
be written in decimal, hexadecimal, octal or binary; digits behind a needless zero are a text.
-/

namespace Dwell.Yaml

open Text

inductive Value where
  | null
  | bool (b : Bool)
  | int (n : Int)
  | float (x : Float)
  | text (s : String)

def isNull (s : String) : Bool :=
  s ∈ ["null", "Null", "NULL", "~"]

def readBool? (s : String) : Option Bool :=
  if s ∈ ["true", "True", "TRUE"] then some true
  else if s ∈ ["false", "False", "FALSE"] then some false
  else none

/-- A text without a sign in front of it. -/
def dropSign : List Char → List Char
  | '-' :: s => s
  | '+' :: s => s
  | s => s

/-- Whether a text is a row of digits behind a needless zero. -/
def isPadded (s : List Char) : Bool :=
  let s := dropSign s
  s.length > 1 && s.head? == some '0' && s.all Char.isDigit

/-- The number without a sign that a text denotes, its base given by what it starts with. -/
def readNatural? : List Char → Option Nat
  | '0' :: 'x' :: s => natural? 16 s
  | '0' :: 'o' :: s => natural? 8 s
  | '0' :: 'b' :: s => natural? 2 s
  | s => if isPadded s then none else natural? 10 s

/-- The whole number that a text denotes. -/
def readInt? : List Char → Option Int
  | '-' :: s => (readNatural? s).map fun n => -(n : Int)
  | '+' :: s => (readNatural? s).map (↑·)
  | s => (readNatural? s).map (↑·)

/-- The whole number that a text denotes, if it has no minus sign. -/
def readUnsigned? (s : List Char) : Option Nat :=
  if s.head? = some '-' then none else (readInt? s).map (·.toNat)

/-- Whether a whole number has a signed or an unsigned form of so many bits. -/
def fits (bits : Nat) (n : Int) : Bool :=
  n.toNat < Nat.pow 2 bits && (-n).toNat ≤ Nat.pow 2 (bits - 1)

/-- The double that a text denotes; a numeral beyond the range of doubles denotes none. -/
def readFloat? (s : List Char) : Option Float :=
  let word := String.ofList s
  if word ∈ [".inf", ".Inf", ".INF", "+.inf", "+.Inf", "+.INF"] then some (Double.infinity false)
  else if word ∈ ["-.inf", "-.Inf", "-.INF"] then some (Double.infinity true)
  else if word ∈ [".nan", ".NaN", ".NAN"] then some Double.nan
  else (Double.read? s).filter (·.isFinite)

/-- The whole number of 128 bits at most that a text denotes. -/
def readWide? (s : String) : Option Int :=
  (readInt? s.toList).filter (fits 128)

/-- What a plain scalar denotes. -/
def Value.ofPlain (s : String) : Value :=
  if s = "" ∨ isNull s then .null
  else match readBool? s with
    | some b => .bool b
    | none => match readWide? s with
      | some n => .int n
      | none =>
        if isPadded s.toList then .text s
        else match readFloat? s.toList with
          | some x => .float x
          | none => .text s

/-- What a scalar denotes, whose tag may call for a kind of value. Other tags make it a text. -/
def Value.ofScalar (s : String) (style : Style) :
    (tag : Option String) → Except Fault Value
  | none => .ok (if style = .plain then .ofPlain s else .text s)
  | some "tag:yaml.org,2002:bool" => match readBool? s with
    | some b => .ok (.bool b)
    | none => .error (Fault.expected "a boolean")
  | some "tag:yaml.org,2002:int" => match readWide? s with
    | some n => .ok (.int n)
    | none => .error (Fault.expected "an integer")
  | some "tag:yaml.org,2002:float" => match readFloat? s.toList with
    | some x => .ok (.float x)
    | none => .error (Fault.expected "a float")
  | some "tag:yaml.org,2002:null" =>
    if isNull s then .ok .null else .error (Fault.expected "null")
  | some _ => .ok (.text s)

end Dwell.Yaml
