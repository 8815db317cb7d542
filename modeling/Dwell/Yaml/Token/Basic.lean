/-!
# Tokens of a YAML text

The tokens between which a document is spelled out: scalars and their properties, brackets and
separators, and the beginnings and ends of collections that are only shown by indentation.
-/

namespace Dwell.Yaml

/-- How a scalar is written, as far as it matters to what it denotes. -/
inductive Style where
  | plain
  | literal
  | quoted
  deriving DecidableEq, Repr

inductive Token where
  | version (major minor : Nat)
  | shorthand (handle expansion : String)
  | documentStart
  | documentEnd
  | blockSequence
  | blockMapping
  | blockEnd
  | flowSequence
  | flowSequenceEnd
  | flowMapping
  | flowMappingEnd
  /-- The `-` before an item of a block. -/
  | item
  | comma
  | key
  | value
  | alias (name : String)
  | anchor (name : String)
  | tag (handle suffix : String)
  | scalar (text : String) (style : Style)
  deriving DecidableEq, Repr

end Dwell.Yaml
