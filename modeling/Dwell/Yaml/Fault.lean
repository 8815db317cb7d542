/-!
# What is wrong with a YAML text

The causes for which a text is refused: first those of its form, then those of its content, when
the text is read as a document of a known shape.
-/

namespace Dwell.Yaml

inductive Fault where
  /-- A character that no YAML text may hold. -/
  | control (c : Char)
  /-- A character that starts no token. -/
  | noToken
  | unfinished
  | badEscape
  | badIndentation
  | badDirective
  | badAnchor
  | badTag
  /-- A line that must be a key has no `:`. -/
  | keyWithoutValue
  /-- An entry, a key or a value stands where none can. -/
  | misplaced
  | expectedNode
  | expectedEntry
  | undefinedAnchor (name : String)
  | severalDocuments
  | tooDeep
  /-- A node of another kind than the one named. -/
  | expected (kind : String)
  | missingField (name : String)
  | duplicateField (name : String)
  | unknownVariant (name : String)
  deriving DecidableEq, Repr

end Dwell.Yaml
