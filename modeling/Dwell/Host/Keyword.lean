/-!
# Keyword tables

An enumeration names its values by a table of keywords. Names and values may repeat; the first
entry wins.
-/

namespace Dwell

structure Keyword where
  name : String
  value : Int
  deriving DecidableEq, Repr

abbrev KeywordTable := List Keyword

namespace KeywordTable

/-- The value of the first keyword with a name. -/
def value? (table : KeywordTable) (name : String) : Option Int :=
  (table.find? (·.name == name)).map (·.value)

/-- The name of the first keyword with a value. -/
def name? (table : KeywordTable) (value : Int) : Option String :=
  (table.find? (·.value == value)).map (·.name)

/-- The value of a name, if it is one of the states `0, 1, …, count - 1`. -/
def state? (table : KeywordTable) (count : Nat) (name : String) : Option Nat :=
  match table.value? name with
  | some v => if 0 ≤ v ∧ v < count then some v.toNat else none
  | none => none

end KeywordTable

end Dwell
