/-!
# JSON texts

Values as indented JSON: every item and field on a line of its own, two columns deeper than the
brackets around it, and empty collections as a pair of brackets.
-/

namespace Dwell.Text

inductive JsonValue where
  /-- A number or a word, as it is written. -/
  | atom (text : String)
  | text (s : String)
  | list (items : List JsonValue)
  | object (fields : List (String × JsonValue))

namespace JsonValue

def null : JsonValue :=
  .atom "null"

def ofInt (n : Int) : JsonValue :=
  .atom (toString n)

def ofText? (s : Option String) : JsonValue :=
  match s with
  | some s => .text s
  | none => .null

/-- A character inside a JSON text: quotes, backslashes and controls are escaped. -/
def escape (c : Char) : List Char :=
  match c with
  | '"' => ['\\', '"']
  | '\\' => ['\\', '\\']
  | '\x08' => ['\\', 'b']
  | '\x0C' => ['\\', 'f']
  | '\n' => ['\\', 'n']
  | '\r' => ['\\', 'r']
  | '\t' => ['\\', 't']
  | _ =>
    if c.toNat < 0x20 then
      let digits := Nat.toDigits 16 c.toNat
      ['\\', 'u'] ++ List.replicate (4 - digits.length) '0' ++ digits
    else [c]

def quote (s : String) : String :=
  .ofList (['"'] ++ s.toList.flatMap escape ++ ['"'])

/-- Written parts between brackets, in lines of their own. -/
def bracket (indent : Nat) (left right : String) (parts : List String) : String :=
  match parts with
  | [] => left ++ right
  | _ =>
    let line := "\n" ++ String.ofList (List.replicate indent ' ')
    left ++ line ++ "  " ++ ("," ++ line ++ "  ").intercalate parts ++ line ++ right

mutual

/-- A value whose lines after the first are indented. -/
def write (indent : Nat) : JsonValue → String
  | .atom s => s
  | .text s => quote s
  | .list items => bracket indent "[" "]" (writeItems (indent + 2) items)
  | .object fields => bracket indent "\x7b" "\x7d" (writeFields (indent + 2) fields)

def writeItems (indent : Nat) : List JsonValue → List String
  | [] => []
  | v :: vs => v.write indent :: writeItems indent vs

def writeFields (indent : Nat) : List (String × JsonValue) → List String
  | [] => []
  | (name, v) :: fs => (quote name ++ ": " ++ v.write indent) :: writeFields indent fs

end

end JsonValue

end Dwell.Text
