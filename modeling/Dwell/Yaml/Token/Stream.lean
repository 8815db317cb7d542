import Dwell.Yaml.Token.Property

/-!
# The tokens of a text

`Token.ofText` turns a text into its tokens. Two things are not written and have to be found.
Where lines are indented deeper a block collection begins, and where they return it ends. And a
key is a key only because a `:` follows it on its line: so the places where a key may have begun
are remembered, and the token that announces it is put there once the `:` is seen.
-/

namespace Dwell.Yaml

/-- A place where a key may have begun. -/
structure KeyPlace where
  /-- The number of tokens before it. -/
  position : Nat
  index : Nat
  line : Nat
  column : Nat
  /-- Whether nothing but a key can stand there. -/
  required : Bool

structure Lexing where
  cursor : Cursor
  /-- The tokens so far, the last one first. -/
  tokens : List Token := []
  count : Nat := 0
  /-- The column of the innermost block collection. -/
  indent : Int := -1
  /-- The columns of those around it. -/
  outer : List Int := []
  /-- Whether a key may begin at the cursor. -/
  keyAllowed : Bool := true
  /-- The place of a possible key, in each pair of brackets that is open, the innermost first. -/
  places : List (Option KeyPlace) := [none]

namespace Lexing

/-- Whether the cursor is inside brackets. -/
def inFlow (s : Lexing) : Bool :=
  s.places.length > 1

def emit (s : Lexing) (t : Token) : Lexing :=
  { s with tokens := t :: s.tokens, count := s.count + 1 }

/-- Puts a token behind the first `position` ones. -/
def insert (s : Lexing) (position : Nat) (t : Token) : Lexing :=
  { s with tokens := s.tokens.insertIdx (s.count - position) t, count := s.count + 1 }

/-! ## Places of keys -/

/-- A key cannot begin on an earlier line or a thousand characters before. -/
def isStale (c : Cursor) (k : KeyPlace) : Bool :=
  k.line < c.line || k.index + 1024 < c.index

/-- Forgets the places where no key can have begun after all. -/
def dropStale (s : Lexing) : Except Fault Lexing :=
  if s.places.any fun p => p.any fun k => isStale s.cursor k && k.required then
    .error .keyWithoutValue
  else .ok { s with places := s.places.map (·.filter (!isStale s.cursor ·)) }

/-- Forgets the innermost place. -/
def dropPlace (s : Lexing) : Except Fault Lexing :=
  match s.places with
  | some k :: ps =>
    if k.required then .error .keyWithoutValue else .ok { s with places := none :: ps }
  | _ => .ok s

/-- Remembers the cursor as a place of a key, if one may begin there. -/
def savePlace (s : Lexing) : Except Fault Lexing :=
  if s.keyAllowed then do
    let required := !s.inFlow && s.indent == s.cursor.column
    let s ← s.dropPlace
    let k : KeyPlace := ⟨s.count, s.cursor.index, s.cursor.line, s.cursor.column, required⟩
    return { s with places := some k :: s.places.drop 1 }
  else .ok s

/-! ## Indentation -/

/-- Opens a block collection at a column that is deeper than the present one, by a token at a
position. -/
def openBlock (s : Lexing) (column position : Nat) (t : Token) : Lexing :=
  if ¬ s.inFlow ∧ s.indent < column then
    { s.insert position t with indent := column, outer := s.indent :: s.outer }
  else s

def closeTo (column : Int) : (outer : List Int) → Lexing → Lexing
  | [], s => s
  | i :: outer, s =>
    if column < s.indent then
      closeTo column outer { s.emit .blockEnd with indent := i, outer }
    else s

/-- Closes the block collections that are deeper than a column. -/
def closeBlocks (s : Lexing) (column : Int) : Lexing :=
  if s.inFlow then s else closeTo column s.outer s

/-! ## Tokens -/

/-- Skips blanks, comments and line breaks. Outside brackets a new line may begin with a key, and
tabs count as blanks only where no key may begin. -/
def skipBlank : Nat → Lexing → Lexing
  | 0, s => s
  | fuel + 1, s =>
    let c := if s.cursor.column = 0 ∧ s.cursor.isAt byteOrderMark then s.cursor.skip else s.cursor
    let tabs := s.inFlow || !s.keyAllowed
    let c := (c.span fun ch => ch == ' ' || (tabs && ch == '\t')).2.skipComment
    if c.breakAhead then
      skipBlank fuel { s with cursor := c.readBreak.2, keyAllowed := s.keyAllowed || !s.inFlow }
    else { s with cursor := c }

/-- A token of `width` characters that stands for itself. -/
def mark (s : Lexing) (t : Token) (width : Nat) (keyAllowed : Bool) : Lexing :=
  { s.emit t with cursor := s.cursor.skip width, keyAllowed }

/-- Ends all blocks, before a directive or a document marker. -/
def endBlocks (s : Lexing) : Except Fault Lexing := do
  let s ← (s.closeBlocks (-1)).dropPlace
  return { s with keyAllowed := false }

def openBracket (s : Lexing) (t : Token) : Except Fault Lexing := do
  let s ← s.savePlace
  return { s with places := none :: s.places }.mark t 1 true

def closeBracket (s : Lexing) (t : Token) : Except Fault Lexing := do
  let s ← s.dropPlace
  return { s with places := if s.inFlow then s.places.drop 1 else s.places }.mark t 1 false

/-- The `-` of an item. -/
def item (s : Lexing) : Except Fault Lexing := do
  if ¬ s.inFlow ∧ ¬ s.keyAllowed then throw .misplaced
  let s ← (s.openBlock s.cursor.column s.count .blockSequence).dropPlace
  return s.mark .item 1 true

/-- The `?` before a key. -/
def explicitKey (s : Lexing) : Except Fault Lexing := do
  if ¬ s.inFlow ∧ ¬ s.keyAllowed then throw .misplaced
  let s ← (s.openBlock s.cursor.column s.count .blockMapping).dropPlace
  return s.mark .key 1 (!s.inFlow)

/-- The `:` before a value. It makes a key of what stands at the place that was remembered. -/
def value (s : Lexing) : Except Fault Lexing :=
  match s.places with
  | some k :: ps =>
    let s := (s.insert k.position .key).openBlock k.column k.position .blockMapping
    .ok ({ s with places := none :: ps }.mark .value 1 false)
  | _ =>
    if ¬ s.inFlow ∧ ¬ s.keyAllowed then .error .misplaced
    else .ok ((s.openBlock s.cursor.column s.count .blockMapping).mark .value 1 (!s.inFlow))

/-- A token that may be a key, read at the cursor. -/
def content (s : Lexing) (read : Cursor → Except Fault (Token × Cursor)) :
    Except Fault Lexing := do
  let s ← s.savePlace
  let (t, c) ← read s.cursor
  return { s.emit t with cursor := c, keyAllowed := false }

def anchor (s : Lexing) (t : String → Token) : Except Fault Lexing :=
  s.content fun c => do
    let (name, c) ← c.readAnchor
    return (t name, c)

def quoted (s : Lexing) (single : Bool) : Except Fault Lexing :=
  s.content fun c => do
    let (text, c) ← c.readQuoted single
    return (.scalar (.ofList text) .quoted, c)

/-- A plain scalar. When it ends its line, a key may begin on the next. -/
def plain (s : Lexing) : Except Fault Lexing := do
  let s ← s.savePlace
  let (text, c, ended) ← s.cursor.readPlain s.inFlow (s.indent + 1)
  return { s.emit (.scalar (.ofList text) .plain) with cursor := c, keyAllowed := ended }

def block (s : Lexing) (folded : Bool) : Except Fault Lexing := do
  let s ← s.dropPlace
  let (text, c) ← s.cursor.readBlock folded s.indent
  let style := if folded then Style.quoted else .literal
  return { s.emit (.scalar (.ofList text) style) with cursor := c, keyAllowed := true }

/-- The characters with which no plain scalar begins. -/
def isIndicator (c : Char) : Bool :=
  c ∈ ['-', '?', ':', ',', '[', ']', '{', '}', '#', '&', '*', '!', '|', '>', '\'', '"', '%', '@',
    '`']

/-- Whether a plain scalar begins with a character, before a blank or not. -/
def startsPlain (flow : Bool) (c : Char) (beforeGap beforeStop : Bool) : Bool :=
  !isIndicator c || (c == '-' && !beforeGap)
    || (!flow && (c == '?' || c == ':') && !beforeStop)

/-- Reads the token at the cursor, which is not at the end of the text. -/
def token (s : Lexing) (c : Cursor) (ch : Char) : Except Fault Lexing := do
  if c.column = 0 ∧ ch = '%' then
    let s ← s.endBlocks
    let (t, c) ← s.cursor.readDirective
    return { s.emit t with cursor := c }
  else if c.markerAhead '-' then return (← s.endBlocks).mark .documentStart 3 false
  else if c.markerAhead '.' then return (← s.endBlocks).mark .documentEnd 3 false
  else if ch = '[' then s.openBracket .flowSequence
  else if ch = '{' then s.openBracket .flowMapping
  else if ch = ']' then s.closeBracket .flowSequenceEnd
  else if ch = '}' then s.closeBracket .flowMappingEnd
  else if ch = ',' then return (← s.dropPlace).mark .comma 1 true
  else if ch = '-' ∧ c.stopsAt 1 then s.item
  else if ch = '?' ∧ (s.inFlow ∨ c.stopsAt 1) then s.explicitKey
  else if ch = ':' ∧ (s.inFlow ∨ c.stopsAt 1) then s.value
  else if ch = '*' then s.anchor .alias
  else if ch = '&' then s.anchor .anchor
  else if ch = '!' then s.content (·.readTag s.inFlow)
  else if ch = '|' ∧ ¬ s.inFlow then s.block false
  else if ch = '>' ∧ ¬ s.inFlow then s.block true
  else if ch = '\'' then s.quoted true
  else if ch = '"' then s.quoted false
  else if startsPlain s.inFlow ch ((c.peek? 1).any isGap) (c.stopsAt 1) ∧ ¬ isGap ch then s.plain
  else throw .noToken

/-- Reads tokens up to the end of the text. -/
def run : Nat → Lexing → Except Fault Lexing
  | 0, s => .ok s
  | fuel + 1, s => do
    let s ← (s.skipBlank (s.cursor.rest.length + 1)).dropStale
    match s.cursor.peek? with
    | some ch =>
      let s := s.closeBlocks s.cursor.column
      run fuel (← s.token s.cursor ch)
    | none => (s.closeBlocks (-1)).dropPlace

end Lexing

/-- The tokens of a text. A byte order mark at its start is not part of it. -/
def Token.ofText (text : String) : Except Fault (List Token) :=
  let s := text.toList
  let s := if s.head? = some byteOrderMark then s.drop 1 else s
  match s.find? (!isAllowed ·) with
  | some c => .error (.control c)
  | none => do
    let s ← Lexing.run (s.length + 1) { cursor := ⟨s, 0, 0, 0⟩ }
    return s.tokens.reverse

end Dwell.Yaml
