import Dwell.Yaml.Scalar

/-!
# Reading nodes

How nodes are read as values of known kinds. A scalar is read by its text, whatever it denotes by
itself, so `1.50` may be a name; a list, a table or a record may be left empty, and a record may be
written as the list of its fields in order.

Where the kind of a value depends on a node beside it, values are read by what they denote instead:
there a name must be a text, and `1.50` is none. This is the reading of a `settled` node.
-/

namespace Dwell.Yaml

open Text (isSigned)

/-- A tag of an application, which names a variant. -/
def variantTag? (tag : Option String) : Option String :=
  match tag.map String.toList with
  | some ['!'] => some "!"
  | some ('!' :: name) => some (.ofList name)
  | _ => none

/-- Whether a scalar is read as a value of the kind that has a tag. A block of lines is when it
has that tag. -/
def isRead (style : Style) (tag : Option String) (expected : String) : Bool :=
  style == .plain || (style == .literal && tag == some expected)

namespace Node

def text : Node → Except Fault String
  | .scalar s _ _ => .ok s
  | _ => .error (.expected "a text")

def int : Node → Except Fault Int
  | .scalar s style tag =>
    match (readInt? s.toList).filter isSigned with
    | some n =>
      if isRead style tag "tag:yaml.org,2002:int" then .ok n else .error (.expected "an integer")
    | none => .error (.expected "an integer")
  | _ => .error (.expected "an integer")

def index : Node → Except Fault Nat
  | .scalar s style tag =>
    match (readUnsigned? s.toList).filter (· < 0x10000000000000000) with
    | some n =>
      if isRead style tag "tag:yaml.org,2002:int" then .ok n else .error (.expected "an index")
    | none => .error (.expected "an index")
  | _ => .error (.expected "an index")

def float : Node → Except Fault Float
  | .scalar s style tag =>
    match readFloat? s.toList with
    | some x =>
      if isRead style tag "tag:yaml.org,2002:float" then .ok x else .error (.expected "a float")
    | none => .error (.expected "a float")
  | _ => .error (.expected "a float")

def items (n : Node) : Except Fault (List Node) :=
  match n with
  | .seq ns _ => .ok ns
  | _ => if n.isEmpty then .ok [] else .error (.expected "a list")

def entries (n : Node) : Except Fault (List (Node × Node)) :=
  match n with
  | .map es _ => .ok es
  | _ => if n.isEmpty then .ok [] else .error (.expected "a table")

/-- The variant that a word or a tag names; a tag must stand before nothing. -/
def variant (n : Node) : Except Fault String :=
  match variantTag? n.tag?, n with
  | some name, .scalar s .plain _ =>
    if s = "" ∨ isNull s then .ok name else .error (.expected "nothing")
  | some _, _ => .error (.expected "nothing")
  | none, .scalar s _ _ => .ok s
  | none, _ => .error (.expected "a variant")

end Node

/-! ## Records -/

/-- The fields of a record that are given, by name. -/
abbrev Fields := List (String × Node)

namespace Fields

/-- Adds a field, which must not be there yet; fields that the record does not have are left
out. -/
def add (names : List String) (fs : Fields) (name : String) (n : Node) : Except Fault Fields :=
  if name ∈ names then
    if (fs.lookup name).isSome then .error (.duplicateField name) else .ok (fs ++ [(name, n)])
  else .ok fs

/-- Fields in the order of their names. There must not be more than the record has. -/
def ofItems (names : List String) (ns : List Node) : Except Fault Fields :=
  if ns.length ≤ names.length then .ok (names.zip ns) else .error (.expected "fewer fields")

/-- Reads a field, which may be left out. -/
def read? {α : Type} (fs : Fields) (name : String) (default : α) (read : Node → Except Fault α) :
    Except Fault α :=
  match fs.lookup name with
  | some n => read n
  | none => .ok default

/-- Reads a field, which must be there. -/
def read {α : Type} (fs : Fields) (name : String) (read : Node → Except Fault α) :
    Except Fault α :=
  match fs.lookup name with
  | some n => read n
  | none => .error (.missingField name)

end Fields

/-- The fields of a record with the given field names. -/
def Node.fields (names : List String) (n : Node) : Except Fault Fields :=
  match n with
  | .seq ns _ => Fields.ofItems names ns
  | _ => do
    (← n.entries).foldlM (fun fs e => do fs.add names (← e.1.text) e.2) []

/-! ## Settled nodes -/

/-- What a scalar denotes by itself. Whole numbers are bounded, and variants denote nothing. -/
def Node.value : Node → Except Fault Value
  | .scalar s style tag =>
    if (variantTag? tag).isSome then .error (.expected "a value")
    else do
      let v ← Value.ofScalar s style tag
      match v with
      | .int n => if fits 64 n then return v else throw (.expected "an integer of 64 bits")
      | _ => return v
  | _ => .error (.expected "a scalar")

/-- How deep collections may nest. -/
def greatestDepth : Nat := 128

mutual

/-- Checks that every scalar in a node denotes a value, with `room` collections left to nest. -/
def Node.settle (room : Nat) : Node → Except Fault Unit
  | .endless => .error .tooDeep
  | .scalar s style tag => do let _ ← Node.value (.scalar s style tag)
  | .seq ns tag =>
    if room = 0 then .error .tooDeep
    else if (variantTag? tag).isSome then .error (.expected "a value")
    else Node.settleAll (room - 1) ns
  | .map es tag =>
    if room = 0 then .error .tooDeep
    else if (variantTag? tag).isSome then .error (.expected "a value")
    else Node.settleEntries (room - 1) es

def Node.settleAll (room : Nat) : List Node → Except Fault Unit
  | [] => .ok ()
  | n :: ns => do
    n.settle room
    Node.settleAll room ns

def Node.settleEntries (room : Nat) : List (Node × Node) → Except Fault Unit
  | [] => .ok ()
  | (k, v) :: es => do
    k.settle room
    v.settle room
    Node.settleEntries room es

end

namespace Node

def settledText (n : Node) : Except Fault String := do
  match ← n.value with
  | .text s => return s
  | _ => throw (.expected "a text")

def settledInt (n : Node) : Except Fault Int := do
  match ← n.value with
  | .int n => if isSigned n then return n else throw (.expected "an integer")
  | _ => throw (.expected "an integer")

def settledFloat (n : Node) : Except Fault Float := do
  match ← n.value with
  | .float x => return x
  | .int n => return Double.ofInt n
  | _ => throw (.expected "a float")

def settledItems : Node → Except Fault (List Node)
  | .seq ns _ => .ok ns
  | _ => .error (.expected "a list")

def settledEntries : Node → Except Fault (List (Node × Node))
  | .map es _ => .ok es
  | _ => .error (.expected "a table")

/-- The field that a settled key names, by its name or by its position. -/
def settledKey (names : List String) (n : Node) : Except Fault String := do
  match ← n.value with
  | .text s => return s
  | .int i => if 0 ≤ i then return (names[i.toNat]?).getD "" else throw (.expected "a field")
  | _ => throw (.expected "a field")

end Node

/-- The entries of a table with settled keys, split into those with a key and the others. -/
def splitVariant (key : String) (es : List (Node × Node)) : List Node × List (Node × Node) :=
  let isTag (e : Node × Node) : Bool := match e.1.value with
    | .ok (.text s) => s == key
    | _ => false
  ((es.filter isTag).map (·.2), es.filter (!isTag ·))

/-- A record whose variant is named by one of its fields: the variant's name, and a reader of the
variant's fields by their names. Written as a list, the name comes first. -/
def Node.tagged (key : String) (room : Nat) (n : Node) :
    Except Fault (String × (List String → Except Fault Fields)) := do
  n.settle room
  match n with
  | .seq (name :: ns) _ => return (← name.text, fun names => Fields.ofItems names ns)
  | .map es _ =>
    match splitVariant key es with
    | ([], _) => throw (.missingField key)
    | ([name], rest) =>
      return (← name.text, fun names =>
        rest.foldlM (fun fs e => do fs.add names (← e.1.settledKey names) e.2) [])
    | _ => throw (.duplicateField key)
  | .seq [] _ => throw (.missingField key)
  | _ => throw (.expected "a record")

end Dwell.Yaml
