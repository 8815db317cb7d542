import Dwell.Yaml.Fault

/-!
# Positions in a YAML text

A cursor is what is left of a text and where that stands: its index, line and column, in
characters. Line breaks are read as one character each, `\r\n` included.
-/

namespace Dwell.Yaml

/-- The characters that a YAML text may hold. -/
def isAllowed (c : Char) : Bool :=
  let n := c.toNat
  n == 0x09 || n == 0x0A || n == 0x0D || (0x20 ≤ n && n ≤ 0x7E) || n == 0x85
    || (0xA0 ≤ n && n ≤ 0xD7FF) || (0xE000 ≤ n && n ≤ 0xFFFD) || 0x10000 ≤ n

def isBreak (c : Char) : Bool :=
  c ∈ ['\n', '\r', '\u0085', '\u2028', '\u2029']

/-- A space or a tab. -/
def isGap (c : Char) : Bool :=
  c == ' ' || c == '\t'

/-- The characters of anchors, handles and directive names. -/
def isWordChar (c : Char) : Bool :=
  c.isAlphanum || c == '_' || c == '-'

/-- The characters that end a plain scalar inside brackets. -/
def isFlowIndicator (c : Char) : Bool :=
  c ∈ [',', '[', ']', '{', '}']

/-- The mark that may stand at the start of a text. -/
def byteOrderMark : Char := '\uFEFF'

structure Cursor where
  rest : List Char
  index : Nat := 0
  line : Nat := 0
  column : Nat := 0

namespace Cursor

def peek? (c : Cursor) (n : Nat := 0) : Option Char :=
  c.rest[n]?

def isAt (c : Cursor) (ch : Char) (n : Nat := 0) : Bool :=
  c.peek? n == some ch

/-- Whether a space, a tab, a line break or the end of the text stands `n` characters ahead. -/
def stopsAt (c : Cursor) (n : Nat) : Bool :=
  match c.peek? n with
  | none => true
  | some ch => isGap ch || isBreak ch

def breakAhead (c : Cursor) : Bool :=
  (c.peek?).any isBreak

/-- The cursor `n` characters further on the same line. -/
def skip (c : Cursor) (n : Nat := 1) : Cursor :=
  { c with rest := c.rest.drop n, index := c.index + n, column := c.column + n }

/-- The characters ahead that have a property, and the cursor behind them. -/
def span (c : Cursor) (p : Char → Bool) : List Char × Cursor :=
  let s := c.rest.takeWhile p
  (s, c.skip s.length)

def skipGaps (c : Cursor) : Cursor :=
  (c.span isGap).2

/-- The line break ahead, a line feed for all those that are written as control characters, and
the cursor at the start of the next line. -/
def readBreak (c : Cursor) : List Char × Cursor :=
  match c.rest with
  | '\r' :: '\n' :: rest => (['\n'], ⟨rest, c.index + 2, c.line + 1, 0⟩)
  | ch :: rest =>
    if isBreak ch then
      ([if ch = '\u2028' ∨ ch = '\u2029' then ch else '\n'], ⟨rest, c.index + 1, c.line + 1, 0⟩)
    else ([], c)
  | [] => ([], c)

/-- The cursor behind a comment, if one stands ahead. -/
def skipComment (c : Cursor) : Cursor :=
  if c.isAt '#' then (c.span (!isBreak ·)).2 else c

/-- The cursor on the next line, when only blanks and a comment are left of this one. -/
def endLine (c : Cursor) (fault : Fault) : Except Fault Cursor :=
  let c := c.skipGaps.skipComment
  if c.stopsAt 0 then .ok c.readBreak.2 else .error fault

/-- Whether a line starts here with the three characters of a document marker. -/
def markerAhead (c : Cursor) (ch : Char) : Bool :=
  c.column == 0 && c.isAt ch 0 && c.isAt ch 1 && c.isAt ch 2 && c.stopsAt 3

def documentMarkerAhead (c : Cursor) : Bool :=
  c.markerAhead '-' || c.markerAhead '.'

end Cursor

/-- Line breaks inside a scalar, folded: a single one is a space, more are one fewer. -/
def foldBreaks : List Char → List Char
  | ['\n'] => [' ']
  | '\n' :: bs => bs
  | bs => bs

end Dwell.Yaml
