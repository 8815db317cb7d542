import Dwell.Yaml.Cursor

/-!
# Scalars in a YAML text

The four ways to write a scalar: plain, in single quotes, in double quotes, and as a block of
lines. Each reader starts at the scalar and answers its text and the cursor behind it. Loops are
bounded by the length of the text that is left, of which every round takes at least one character.
-/

namespace Dwell.Yaml

/-- Blanks and line breaks between two parts of a scalar. -/
structure Break where
  /-- The blanks on the line, kept when no line break follows. -/
  gaps : List Char
  breaks : List Char

/-- The text that blanks and line breaks stand for. -/
def Break.text (b : Break) : List Char :=
  if b.breaks = [] then b.gaps else foldBreaks b.breaks

namespace Cursor

/-- The line breaks ahead and the blanks around them. A tab left of `indent` on a new line is
refused. -/
def readBreaks (indent : Int) : Nat → Cursor → List Char → Except Fault (List Char × Cursor)
  | 0, c, breaks => .ok (breaks, c)
  | fuel + 1, c, breaks =>
    match c.peek? with
    | some ch =>
      if isBreak ch then
        let (b, c) := c.readBreak
        readBreaks indent fuel c (breaks ++ b)
      else if isGap ch then
        if ch = '\t' ∧ breaks ≠ [] ∧ c.column < indent then .error .badIndentation
        else readBreaks indent fuel c.skip breaks
      else .ok (breaks, c)
    | none => .ok (breaks, c)

/-- The blanks and line breaks ahead. -/
def readGap (indent : Int) (c : Cursor) : Except Fault (Break × Cursor) := do
  let (gaps, c) := c.span isGap
  let (breaks, c) ← readBreaks indent (c.rest.length + 1) c []
  return (⟨gaps, breaks⟩, c)

/-! ## Plain scalars -/

/-- The characters up to a blank, a line break, a `:` that ends a key, or inside brackets one of
their indicators. Inside brackets a `:` before such an indicator is refused. -/
def plainRun (flow : Bool) : List Char → Except Fault (List Char)
  | [] => .ok []
  | ch :: rest =>
    if isGap ch || isBreak ch then .ok []
    else if flow && isFlowIndicator ch then .ok []
    else if ch = ':' then
      match rest with
      | [] => .ok []
      | d :: _ =>
        if flow && (isFlowIndicator d || d == '?') then .error .misplaced
        else if isGap d || isBreak d then .ok []
        else return ch :: (← plainRun flow rest)
    else return ch :: (← plainRun flow rest)

/-- A plain scalar's text behind `read`, the cursor behind it and the blanks after it, and whether
those end its line. -/
def plainParts (flow : Bool) (indent : Int) : Nat → Cursor → (read : List Char) → (gap : Break) →
    Except Fault (List Char × Cursor × Bool)
  | 0, c, read, _ => .ok (read, c, false)
  | fuel + 1, c, read, gap =>
    if c.documentMarkerAhead || c.isAt '#' then .ok (read, c, gap.breaks ≠ [])
    else do
      let run ← plainRun flow c.rest
      let c := c.skip run.length
      let joined := if run = [] then read else read ++ gap.text ++ run
      let left := if run = [] then gap else ⟨[], []⟩
      if c.rest ≠ [] ∧ c.stopsAt 0 then
        let (gap, c) ← c.readGap indent
        if ¬ flow ∧ c.column < indent then return (joined, c, gap.breaks ≠ [])
        else plainParts flow indent fuel c joined gap
      else return (joined, c, left.breaks ≠ [])

/-- A plain scalar whose lines are indented by `indent` at least. -/
def readPlain (flow : Bool) (indent : Int) (c : Cursor) :
    Except Fault (List Char × Cursor × Bool) :=
  plainParts flow indent (c.rest.length + 1) c [] ⟨[], []⟩

/-! ## Quoted scalars -/

/-- The character that an escape letter stands for by itself. -/
def escapes : List (Char × Char) :=
  [('0', '\x00'), ('a', '\x07'), ('b', '\x08'), ('t', '\t'), ('\t', '\t'), ('n', '\n'),
    ('v', '\x0b'), ('f', '\x0c'), ('r', '\r'), ('e', '\x1b'), (' ', ' '), ('"', '"'), ('/', '/'),
    ('\\', '\\'), ('N', '\u0085'), ('_', '\u00a0'), ('L', '\u2028'), ('P', '\u2029')]

/-- The number of hexadecimal digits after an escape letter that gives a code point. -/
def escapeDigits : List (Char × Nat) :=
  [('x', 2), ('u', 4), ('U', 8)]

def hexDigit? (c : Char) : Option Nat :=
  if c.isDigit then some (c.toNat - '0'.toNat)
  else if 'a' ≤ c ∧ c ≤ 'f' then some (c.toNat - 'a'.toNat + 10)
  else if 'A' ≤ c ∧ c ≤ 'F' then some (c.toNat - 'A'.toNat + 10)
  else none

def hexValue? (s : List Char) : Option Nat :=
  s.foldl (fun v c => do return 16 * (← v) + (← hexDigit? c)) (some 0)

/-- The character that the escape ahead stands for, and the cursor behind it. -/
def readEscape (c : Cursor) : Except Fault (Char × Cursor) :=
  match c.rest with
  | '\\' :: letter :: rest =>
    match escapes.lookup letter, escapeDigits.lookup letter with
    | some ch, _ => .ok (ch, c.skip 2)
    | none, some n =>
      if rest.length < n then .error .badEscape
      else match hexValue? (rest.take n) with
        | some v =>
          if v.isValidChar then .ok (Char.ofNat v, c.skip (2 + n)) else .error .badEscape
        | none => .error .badEscape
    | none, none => .error .badEscape
  | _ => .error .badEscape

/-- The characters of a quoted scalar up to a blank, a line break or its end, the cursor behind
them, and whether a line break was escaped there. -/
def quotedRun (single : Bool) : Nat → Cursor → Except Fault (List Char × Cursor × Bool)
  | 0, c => .ok ([], c, false)
  | fuel + 1, c =>
    if c.stopsAt 0 then .ok ([], c, false)
    else if c.isAt (if single then '\'' else '"') then
      if single ∧ c.isAt '\'' 1 then do
        let (run, c, escaped) ← quotedRun single fuel (c.skip 2)
        return ('\'' :: run, c, escaped)
      else .ok ([], c, false)
    else if ¬ single ∧ c.isAt '\\' then
      if (c.peek? 1).any isBreak then .ok ([], c.skip.readBreak.2, true)
      else do
        let (ch, c) ← c.readEscape
        let (run, c, escaped) ← quotedRun single fuel c
        return (ch :: run, c, escaped)
    else do
      let (run, next, escaped) ← quotedRun single fuel c.skip
      return (c.rest.take 1 ++ run, next, escaped)

/-- A quoted scalar's text behind `read`, and the cursor behind its closing quote. -/
def quotedParts (single : Bool) : Nat → Cursor → (read : List Char) →
    Except Fault (List Char × Cursor)
  | 0, _, _ => .error .unfinished
  | fuel + 1, c, read =>
    if c.documentMarkerAhead then .error .misplaced
    else if c.rest = [] then .error .unfinished
    else do
      let (run, c, escaped) ← quotedRun single (c.rest.length + 1) c
      if c.isAt (if single then '\'' else '"') then return (read ++ run, c.skip)
      else
        let (gap, c) ← c.readGap 0
        quotedParts single fuel c (read ++ run ++ if escaped then gap.breaks else gap.text)

def readQuoted (single : Bool) (c : Cursor) : Except Fault (List Char × Cursor) :=
  quotedParts single (c.rest.length + 1) c.skip []

/-! ## Block scalars -/

/-- What is done with the line breaks at the end of a block. -/
inductive Chomp where
  | strip
  | clip
  | keep
  deriving DecidableEq, Repr

structure BlockHeader where
  chomp : Chomp
  /-- How far the block is indented beyond its surroundings, if the header says so. -/
  increment : Option Nat

def chompAhead? (c : Cursor) : Option Chomp :=
  if c.isAt '+' then some .keep else if c.isAt '-' then some .strip else none

/-- The indentation that a digit ahead gives; a zero is refused. -/
def incrementAhead (c : Cursor) : Except Fault (Option Nat) :=
  match c.peek? with
  | some ch =>
    if ch = '0' then .error .badIndentation
    else .ok (if ch.isDigit then some (ch.toNat - '0'.toNat) else none)
  | none => .ok none

/-- A block's header behind its indicator, and the cursor on the line below. Chomping and
indentation may stand in either order. -/
def readHeader (c : Cursor) : Except Fault (BlockHeader × Cursor) := do
  match c.chompAhead? with
  | some chomp =>
    let c := c.skip
    let increment ← c.incrementAhead
    let c ← (if increment.isSome then c.skip else c).endLine .badIndentation
    return (⟨chomp, increment⟩, c)
  | none =>
    let increment ← c.incrementAhead
    let c := if increment.isSome then c.skip else c
    let chomp := if increment.isSome then c.chompAhead? else none
    let c ← (if chomp.isSome then c.skip else c).endLine .badIndentation
    return (⟨chomp.getD .clip, increment⟩, c)

/-- The empty lines ahead, the cursor at the first line that is not, and the deepest column seen.
Lines are indented by `indent`, as far as they like if that is not yet known. -/
def emptyLines (indent : Option Nat) : Nat → Cursor → (breaks : List Char) → (deepest : Nat) →
    Except Fault (List Char × Cursor × Nat)
  | 0, c, breaks, deepest => .ok (breaks, c, deepest)
  | fuel + 1, c, breaks, deepest =>
    let spaces := (c.rest.takeWhile (· == ' ')).length
    let c := c.skip (match indent with
      | some n => min spaces (n - c.column)
      | none => spaces)
    let deepest := max deepest c.column
    if indent.all (c.column < ·) ∧ c.isAt '\t' then .error .badIndentation
    else if c.breakAhead then
      let (b, c) := c.readBreak
      emptyLines indent fuel c (breaks ++ b) deepest
    else .ok (breaks, c, deepest)

/-- The state between two lines of a block: the text so far, the break that ended the last line,
the empty lines after it, and whether the last line began with a blank. -/
structure Block where
  text : List Char := []
  lastBreak : List Char := []
  empty : List Char := []
  blank : Bool := false

/-- The text of a block up to a line that begins with a blank or not. Folding joins two lines of
which neither begins with a blank. -/
def Block.joined (b : Block) (folded blank : Bool) : List Char :=
  if folded ∧ b.lastBreak = ['\n'] ∧ ¬ b.blank ∧ ¬ blank then
    b.text ++ (if b.empty = [] then [' '] else []) ++ b.empty
  else b.text ++ b.lastBreak ++ b.empty

/-- The lines of a block that is indented by `indent`. -/
def blockLines (folded : Bool) (indent : Nat) : Nat → Cursor → Block →
    Except Fault (Block × Cursor)
  | 0, c, b => .ok (b, c)
  | fuel + 1, c, b =>
    if c.column = indent ∧ c.rest ≠ [] then do
      let blank := (c.peek?).any isGap
      let (line, c) := c.span (!isBreak ·)
      let (lastBreak, c) := c.readBreak
      let (empty, c, _) ← emptyLines (some indent) (c.rest.length + 1) c [] 0
      blockLines folded indent fuel c ⟨b.joined folded blank ++ line, lastBreak, empty, blank⟩
    else .ok (b, c)

def Block.chomped (b : Block) : Chomp → List Char
  | .strip => b.text
  | .clip => b.text ++ b.lastBreak
  | .keep => b.text ++ b.lastBreak ++ b.empty

/-- A block scalar inside a collection that is indented by `parent`. -/
def readBlock (folded : Bool) (parent : Int) (c : Cursor) : Except Fault (List Char × Cursor) := do
  let (header, c) ← c.skip.readHeader
  let given := header.increment.map fun n => (if 0 ≤ parent then parent.toNat else 0) + n
  let (empty, c, deepest) ← emptyLines given (c.rest.length + 1) c [] 0
  let indent := given.getD (max deepest (max (parent + 1).toNat 1))
  let (b, c) ← blockLines folded indent (c.rest.length + 1) c { empty }
  return (b.chomped header.chomp, c)

end Cursor

end Dwell.Yaml
