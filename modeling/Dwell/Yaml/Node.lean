import Dwell.Yaml.Token.Basic

/-!
# Nodes

What a YAML document is: a tree of scalars, sequences and mappings. An alias is replaced by the
node it refers to, so the tree holds none.
-/

namespace Dwell.Yaml

inductive Node where
  | scalar (text : String) (style : Style) (tag : Option String := none)
  | seq (items : List Node) (tag : Option String := none)
  | map (entries : List (Node × Node)) (tag : Option String := none)
  /-- An alias inside the node that it refers to. -/
  | endless
  deriving Repr

namespace Node

/-- The scalar that stands where nothing is written. -/
def empty : Node :=
  .scalar "" .plain

/-- Whether nothing is written where the node stands. -/
def isEmpty : Node → Bool
  | .scalar "" .plain _ => true
  | _ => false

def tag? : Node → Option String
  | .scalar _ _ t | .seq _ t | .map _ t => t
  | .endless => none

/-- A node that is known to hold a text. -/
def ofText (s : String) : Node :=
  .scalar s .quoted

end Node

end Dwell.Yaml
