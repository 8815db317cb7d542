import Dwell.Yaml.Spelling

/-!
# Documents in block style

How a node is written: every entry of a mapping and every item of a sequence on lines of its own,
two columns deeper than the block around it. Sequences are not indented below their key. Empty
collections are written between brackets. Tags are not written.
-/

namespace Dwell.Yaml

/-- Text with a line break at its end, if it does not end with one. -/
def endLine (s : List Char) : List Char :=
  if s.getLast?.any isBreak then s else s ++ ['\n']

/-- A scalar. Texts of the plain style are written as they are. -/
def writeScalar (indent : Nat) (s : String) : Style → List Char
  | .plain => s.toList
  | _ => spell indent s

/-- Whether a scalar may stand before the colon of its entry without a `?`. -/
def isSimpleKey (s : String) : Bool :=
  !s.toList.any isBreak && s.utf8ByteSize ≤ 128

/-- How far a node behind a key is indented, if it starts on the next line. -/
def Node.indentBelow (indent : Nat) : Node → Option Nat
  | .seq (_ :: _) _ => some indent
  | .map (_ :: _) _ => some (indent + 2)
  | _ => none

mutual

/-- The lines of a node in a block with an indentation, which the first line does without. -/
def Node.write (indent : Nat) : Node → List Char
  | .scalar s style _ => endLine (writeScalar indent s style)
  | .seq [] _ => "[]\n".toList
  | .seq ns _ => (spaces indent).intercalate (Node.writeItems indent ns)
  | .map [] _ => "\x7b\x7d\n".toList
  | .map es _ => (spaces indent).intercalate (Node.writeEntries indent es)
  | .endless => []

def Node.writeItems (indent : Nat) : List Node → List (List Char)
  | [] => []
  | n :: ns => ('-' :: ' ' :: n.write (indent + 2)) :: Node.writeItems indent ns

def Node.writeEntries (indent : Nat) : List (Node × Node) → List (List Char)
  | [] => []
  | (k, v) :: es =>
    let explicit := '?' :: ' ' :: k.write (indent + 2) ++ spaces indent ++ ':' :: ' '
      :: v.write (indent + 2)
    let entry := match k with
      | .scalar s style _ =>
        if isSimpleKey s then
          writeScalar (indent + 2) s style ++ ':' :: match v.indentBelow indent with
            | some i => '\n' :: spaces i ++ v.write i
            | none => ' ' :: v.write (indent + 2)
        else explicit
      | _ => explicit
    entry :: Node.writeEntries indent es

end

/-- The document of a node. -/
def Node.block (n : Node) : String :=
  .ofList (n.write 0)

end Dwell.Yaml
