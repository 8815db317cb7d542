import Dwell.Yaml.Token.Basic
import Dwell.Yaml.Token.Scalar

/-!
# Names in a YAML text

Anchors, aliases, tags and directives. A tag is written `!<tag>`, `!suffix` or `!handle!suffix`.
-/

namespace Dwell.Yaml.Cursor

/-- Reads the name behind `&` or `*`, which must be followed by a blank or an indicator. -/
def readAnchor (c : Cursor) : Except Fault (String × Cursor) :=
  let (name, c) := c.skip.span isWordChar
  let closed := c.stopsAt 0 || (c.peek?).any (· ∈ ['?', ':', ',', ']', '}', '%', '@', '`'])
  if name ≠ [] ∧ closed then .ok (.ofList name, c) else .error .badAnchor

/-! ## Tags -/

/-- The characters of tags; a tag between angles may hold the last three too. -/
def isTagChar (angles : Bool) (c : Char) : Bool :=
  isWordChar c
    || c ∈ [';', '/', '?', ':', '@', '&', '=', '+', '$', '.', '!', '~', '*', '\'', '(', ')']
    || (angles && c ∈ [',', '[', ']'])

/-- The value of the octet `%XX` ahead. -/
def octet? (c : Cursor) : Option Nat :=
  match c.rest with
  | '%' :: a :: b :: _ => hexValue? [a, b]
  | _ => none

/-- The code point that the octets ahead complete, of which `left` are missing. -/
def readOctets : (left : Nat) → Cursor → (read : Nat) → Except Fault (Nat × Cursor)
  | 0, c, read => .ok (read, c)
  | left + 1, c, read => match c.octet? with
    | some o =>
      if o / 64 = 2 then readOctets left (c.skip 3) (read * 64 + o % 64) else .error .badTag
    | none => .error .badTag

/-- The character that the octets ahead encode. -/
def readOctetChar (c : Cursor) : Except Fault (Char × Cursor) := do
  let some o := c.octet? | throw .badTag
  let (v, c) ←
    if o < 0x80 then readOctets 0 (c.skip 3) o
    else if o / 32 = 6 then readOctets 1 (c.skip 3) (o % 32)
    else if o / 16 = 14 then readOctets 2 (c.skip 3) (o % 16)
    else if o / 8 = 30 then readOctets 3 (c.skip 3) (o % 8)
    else throw .badTag
  return (Char.ofNat v, c)

def tagParts (angles : Bool) : Nat → Cursor → Except Fault (List Char × Cursor)
  | 0, c => .ok ([], c)
  | fuel + 1, c => match c.peek? with
    | some ch =>
      if ch = '%' then do
        let (ch, c) ← c.readOctetChar
        let (rest, c) ← tagParts angles fuel c
        return (ch :: rest, c)
      else if isTagChar angles ch then do
        let (rest, c) ← tagParts angles fuel c.skip
        return (ch :: rest, c)
      else .ok ([], c)
    | none => .ok ([], c)

/-- The characters of a tag behind `head`, of which there must be one. -/
def readTagText (angles : Bool) (head : List Char) (c : Cursor) :
    Except Fault (List Char × Cursor) := do
  let (s, c) ← tagParts angles (c.rest.length + 1) c
  if head = [] ∧ s = [] then throw .badTag
  return (head.drop 1 ++ s, c)

/-- What stands at the start of a tag: a `!`, a word, and perhaps a second `!`. -/
def readHandle (c : Cursor) : Except Fault (List Char × Cursor) :=
  if c.isAt '!' then
    let (word, c) := c.skip.span isWordChar
    if c.isAt '!' then .ok ('!' :: word ++ ['!'], c.skip) else .ok ('!' :: word, c)
  else .error .badTag

/-- Whether a text that starts with `!` is a handle, closed by a second `!`. -/
def isHandle (s : List Char) : Bool :=
  s.length > 1 && s.getLast? == some '!'

/-- Reads a tag. The lone `!` is a tag without a handle. -/
def readTag (flow : Bool) (c : Cursor) : Except Fault (Token × Cursor) := do
  let (token, c) ←
    if c.isAt '<' 1 then do
      let (s, c) ← readTagText true [] (c.skip 2)
      if ¬ c.isAt '>' then throw .badTag
      pure (Token.tag "" (.ofList s), c.skip)
    else do
      let (handle, c) ← c.readHandle
      if isHandle handle then do
        let (s, c) ← readTagText false [] c
        pure (Token.tag (.ofList handle) (.ofList s), c)
      else do
        let (s, c) ← readTagText false handle c
        pure (if s = [] then Token.tag "" "!" else .tag "!" (.ofList s), c)
  if c.stopsAt 0 ∨ (flow ∧ c.isAt ',') then return (token, c) else throw .badTag

/-! ## Directives -/

def readNumber (c : Cursor) : Except Fault (Nat × Cursor) :=
  let (digits, c) := c.span Char.isDigit
  if 0 < digits.length ∧ digits.length ≤ 9 then
    .ok (digits.foldl (fun n d => 10 * n + (d.toNat - '0'.toNat)) 0, c)
  else .error .badDirective

/-- Reads a directive: the version of YAML, or a shorthand for tags. -/
def readDirective (c : Cursor) : Except Fault (Token × Cursor) := do
  let (name, c) := c.skip.span isWordChar
  if name = [] ∨ ¬ c.stopsAt 0 then throw .badDirective
  let (token, c) ←
    if name = "YAML".toList then do
      let (major, c) ← c.skipGaps.readNumber
      if ¬ c.isAt '.' then throw .badDirective
      let (minor, c) ← c.skip.readNumber
      pure (Token.version major minor, c)
    else if name = "TAG".toList then do
      let (handle, c) ← c.skipGaps.readHandle
      if handle ≠ ['!'] ∧ ¬ isHandle handle then throw .badTag
      if ¬ (c.peek?).any isGap then throw .badDirective
      let (s, c) ← readTagText true [] c.skipGaps
      if ¬ c.stopsAt 0 then throw .badDirective
      pure (Token.shorthand (.ofList handle) (.ofList s), c)
    else throw .badDirective
  return (token, ← c.endLine .badDirective)

end Dwell.Yaml.Cursor
