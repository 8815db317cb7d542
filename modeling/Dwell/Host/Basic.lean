import Dwell.Double.Parts
import Dwell.Host.Keyword
import Dwell.Units

/-!
# Hosts

A host is the object whose properties machines read and write. What properties it has is fixed:
enumerations with their keywords, arrays of numbers with their lengths, sources that the host
computes itself, and properties of other types, which machines cannot read. What changes are its
`readings`, the values that enumerations and array elements have at present. A source answers anew
whenever it is read, and its answers may depend on the readings.

Readings are total: a value that was never written is zero. So writing and reading back needs no
condition, and a name is looked up in the fixed part only.
-/

namespace Dwell

/-- Present values by key; a key without an entry has the default. -/
abbrev Values (κ α : Type) := List (κ × α)

namespace Values

variable {κ α : Type} [BEq κ]

def get (vs : Values κ α) (k : κ) (default : α) : α :=
  (vs.lookup k).getD default

/-- Values with one of them replaced, where it stands or else at the end. -/
def set (k : κ) (v : α) : Values κ α → Values κ α
  | [] => [(k, v)]
  | (k', v') :: vs => if k == k' then (k', v) :: vs else (k', v') :: set k v vs

theorem get_cons [LawfulBEq κ] [DecidableEq κ] (j k : κ) (v d : α) (vs : Values κ α) :
    Values.get ((j, v) :: vs) k d = if k = j then v else vs.get k d := by
  by_cases h : k = j
  · simp [get, h]
  · simp [get, List.lookup_cons, h, beq_eq_false_iff_ne.2 h]

theorem get_set [LawfulBEq κ] [DecidableEq κ] (j k : κ) (v d : α) (vs : Values κ α) :
    (set j v vs).get k d = if k = j then v else vs.get k d := by
  induction vs with
  | nil => rw [set, get_cons]
  | cons p vs ih =>
    obtain ⟨i, w⟩ := p
    by_cases h : j = i
    · subst h
      rw [set, if_pos (by simp), get_cons, get_cons]
      split <;> rfl
    · rw [set, if_neg (by simpa using h), get_cons, get_cons, ih]
      by_cases hk : k = i
      · subst hk
        simp [Ne.symm h]
      · simp [hk]

end Values

structure Readings where
  levels : Values String Int := []
  numbers : Values (String × Nat) Float := []

structure Enumeration where
  keywords : KeywordTable
  /-- Values that the host keeps machines from writing. -/
  refused : List Int := []

/-- What a source answers for one of its elements. -/
structure Source.Answer where
  /-- The number, or nothing if there is none, by the readings of the host. -/
  of : Readings → Option Float

/-- An answer that is always the same. -/
instance : Coe (Option Float) Source.Answer where
  coe x := ⟨fun _ => x⟩

/-- A numeric property that the host computes when it is read. -/
structure Source where
  /-- How many elements there are, if that is fixed. -/
  elements : Option Nat := none
  read : Nat → Source.Answer

structure Host where
  name : String
  units : Units := .time
  enumerations : List (String × Enumeration) := []
  arrays : List (String × Nat) := []
  sources : List (String × Source) := []
  others : List (String × String) := []
  readings : Readings := {}

/-- What a name stands for on a host. -/
inductive Property where
  | enumeration (e : Enumeration)
  | array (length : Nat)
  | source (s : Source)
  | other (type : String)

/-- The type of a property, as diagnostics name it. -/
def Property.kind : Property → String
  | .enumeration _ => "enumeration"
  | .array _ => "double"
  | .source _ => "double"
  | .other type => type

namespace Host

/-- What a name stands for. Enumerations come before arrays, arrays before sources. -/
def property? (h : Host) (name : String) : Option Property :=
  match h.enumerations.lookup name with
  | some e => some (.enumeration e)
  | none => match h.arrays.lookup name with
    | some n => some (.array n)
    | none => match h.sources.lookup name with
      | some s => some (.source s)
      | none => (h.others.lookup name).map .other

/-- The present value of an enumeration. -/
def level (h : Host) (name : String) : Int :=
  h.readings.levels.get name 0

/-- The present value of an element, if the array has it. -/
def element? (h : Host) (name : String) (index : Nat) : Option Float :=
  match h.arrays.lookup name with
  | some n => if index < n then some (h.readings.numbers.get (name, index) 0.0) else none
  | none => none

/-- The number of elements a numeric property is known to have. -/
def elements? (h : Host) (name : String) : Option Nat :=
  match h.property? name with
  | some (.array n) => some n
  | some (.source s) => s.elements
  | _ => none

/-- The number that a machine reads from a numeric property. -/
def read? (h : Host) (name : String) (index : Nat) : Option Float :=
  match h.property? name with
  | some (.array _) => h.element? name index
  | some (.source s) => (s.read index).of h.readings
  | _ => none

/-- Whether reading a name asks one of the host's sources. -/
def isSource (h : Host) (name : String) : Bool :=
  match h.property? name with
  | some (.source _) => true
  | _ => false

/-- The host after its enumeration was set from outside. -/
def setLevel (h : Host) (name : String) (value : Int) : Host :=
  { h with readings.levels := h.readings.levels.set name value }

/-- The host after an array element was set from outside. -/
def setNumber (h : Host) (name : String) (index : Nat) (value : Float) : Host :=
  { h with readings.numbers := h.readings.numbers.set (name, index) value }

/-- The host after its enumeration was set from outside, if it has that enumeration. -/
def setLevel? (h : Host) (name : String) (value : Int) : Option Host :=
  (h.enumerations.lookup name).map fun _ => h.setLevel name value

/-- The host after an array element was set from outside, if it has that element. -/
def setNumber? (h : Host) (name : String) (index : Nat) (value : Float) : Option Host :=
  (h.element? name index).map fun _ => h.setNumber name index value

/-- The host after a number was written to a property from outside. An enumeration takes the whole
part of the number, an array takes it as the element at `index`. -/
def write? (h : Host) (name : String) (index : Nat) (value : Float) : Option Host :=
  match h.property? name with
  | some (.enumeration _) => h.setLevel? name (Double.truncate value)
  | _ => h.setNumber? name index value

/-- The host after a machine wrote an enumeration. Values that the host refuses are not written. -/
def command (h : Host) (name : String) (value : Int) : Host :=
  match h.enumerations.lookup name with
  | some e => if value ∈ e.refused then h else h.setLevel name value
  | none => h.setLevel name value

/-- The present value of an enumeration, if the host has it. -/
def level? (h : Host) (name : String) : Option Int :=
  (h.enumerations.lookup name).map fun _ => h.level name

/-- The keyword for the present value of an enumeration. -/
def levelName? (h : Host) (name : String) : Option String := do
  let e ← h.enumerations.lookup name
  e.keywords.name? (h.level name)

theorem level_setLevel (h : Host) (name other : String) (value : Int) :
    (h.setLevel name value).level other = if other = name then value else h.level other := by
  simp [setLevel, level, Values.get_set]

/-! ## Declaring properties -/

/-- A host with one more enumeration. A later declaration of a name hides an earlier one. -/
def withEnumeration (h : Host) (name : String) (e : Enumeration) (value : Int) : Host :=
  { h.setLevel name value with enumerations := (name, e) :: h.enumerations }

/-- A host with one more array, whose elements have the given values. -/
def withArray (h : Host) (name : String) (values : List Float) : Host :=
  let filled := values.zipIdx.foldl (fun h v => h.setNumber name v.2 v.1) h
  { filled with arrays := (name, values.length) :: h.arrays }

def withSource (h : Host) (name : String) (s : Source) : Host :=
  { h with sources := (name, s) :: h.sources }

def withOther (h : Host) (name type : String) : Host :=
  { h with others := (name, type) :: h.others }

end Host

end Dwell
