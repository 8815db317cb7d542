import Dwell.Yaml.Cursor
import Dwell.Yaml.Scalar

/-!
# How texts are spelled

A text is written as a plain scalar if that reads back as the text, and else between single
quotes. A text of several lines is written as a block of lines. What fits none of these, such as a
tab, is written as an escape between double quotes.
-/

namespace Dwell.Yaml

inductive Spelling where
  | plain
  | single
  | double
  | lines
  deriving DecidableEq, Repr

/-- The words that stood for truth values in older documents. -/
def truthWords : List String :=
  ["y", "Y", "yes", "Yes", "YES", "n", "N", "no", "No", "NO", "true", "True", "TRUE", "false",
    "False", "FALSE", "on", "On", "ON", "off", "Off", "OFF"]

/-- The characters that are written without an escape. -/
def isPrintable (c : Char) : Bool :=
  let n := c.toNat
  n == 0x0A || (0x20 ≤ n && n ≤ 0x7E) || (0xA0 ≤ n && n ≤ 0xD7FF)
    || (0xE000 ≤ n && n ≤ 0xFFFD && c != byteOrderMark)

/-- The characters that no plain scalar starts with. -/
def isMark (c : Char) : Bool :=
  c ∈ ['#', ',', '[', ']', '{', '}', '&', '*', '!', '|', '>', '\'', '"', '%', '@', '`']

/-- Whether a character with one property stands right before one with another. -/
def hasPair (p q : Char → Bool) : List Char → Bool
  | c :: d :: s => (p c && q d) || hasPair p q (d :: s)
  | _ => false

def isSpaceOrBreak (c : Char) : Bool :=
  c == ' ' || isBreak c

def isBlankOrBreak (c : Char) : Bool :=
  isGap c || isBreak c

/-- Whether a text starts like a plain scalar. -/
def startsAsPlain : List Char → Bool
  | '-' :: '-' :: '-' :: _ => false
  | '.' :: '.' :: '.' :: _ => false
  | [c] => !(isMark c || isSpaceOrBreak c || c == '-' || c == '?')
  | c :: d :: _ =>
    !(isMark c || isSpaceOrBreak c || ((c == '-' || c == '?') && isBlankOrBreak d))
  | [] => true

/-- Whether a text, written as a plain scalar in a block, ends where the text ends. -/
def isPlainText (s : List Char) : Bool :=
  startsAsPlain s && s.all (fun c => isPrintable c && !isBreak c)
    && !s.getLast?.any (fun c => c == ' ' || c == ':')
    && !hasPair (· == ':') isGap s && !hasPair isGap (· == '#') s

/-- Whether single quotes keep a text as it is. -/
def isSingleText (s : List Char) : Bool :=
  s.all isPrintable && !hasPair isBreak (· == ' ') s && !hasPair (· == ' ') isBreak s

/-- Whether a block of lines keeps a text as it is. -/
def isBlockText (s : List Char) : Bool :=
  s.all isPrintable && s.getLast? != some ' ' && !hasPair (· == ' ') isBreak s

/-- Whether a text, written as a plain scalar, would be taken for something else. -/
def isAmbiguous (s : String) : Bool :=
  s ∈ truthWords || isPadded s.toList || match Value.ofPlain s with
    | .text _ => false
    | _ => true

/-- How a text is spelled. -/
def Spelling.ofText (s : String) : Spelling :=
  if '\n' ∈ s.toList then if isBlockText s.toList then .lines else .double
  else if isPlainText s.toList && !isAmbiguous s then .plain
  else if isSingleText s.toList then .single
  else .double

def spaces (n : Nat) : List Char :=
  List.replicate n ' '

/-- A text between single quotes. Lines after the first are indented. -/
def writeSingle (indent : Nat) : List Char → List Char
  | [] => []
  | '\'' :: s => '\'' :: '\'' :: writeSingle indent s
  | c :: s =>
    if isBreak c && !s.head?.any isBreak then c :: spaces indent ++ writeSingle indent s
    else c :: writeSingle indent s

/-- The escape of a character between double quotes. -/
def escape (c : Char) : List Char :=
  let code (mark : Char) (width : Nat) : List Char :=
    let digits := (Nat.toDigits 16 c.toNat).map Char.toUpper
    '\\' :: mark :: List.replicate (width - digits.length) '0' ++ digits
  match c with
  | '\x00' => ['\\', '0']
  | '\x07' => ['\\', 'a']
  | '\x08' => ['\\', 'b']
  | '\t' => ['\\', 't']
  | '\n' => ['\\', 'n']
  | '\x0B' => ['\\', 'v']
  | '\x0C' => ['\\', 'f']
  | '\r' => ['\\', 'r']
  | '\x1B' => ['\\', 'e']
  | '"' => ['\\', '"']
  | '\\' => ['\\', '\\']
  | '\u0085' => ['\\', 'N']
  | '\u2028' => ['\\', 'L']
  | '\u2029' => ['\\', 'P']
  | _ =>
    if c.toNat ≤ 0xFF then code 'x' 2
    else if c.toNat ≤ 0xFFFF then code 'u' 4
    else code 'U' 8

/-- A text between double quotes. -/
def writeDouble (s : List Char) : List Char :=
  s.flatMap fun c =>
    if isPrintable c && !isBreak c && c != '"' && c != '\\' then [c] else escape c

/-- The lines of a text, indented; empty ones are not. `fresh` says whether a line starts. -/
def writeLines (indent : Nat) (fresh : Bool) : List Char → List Char
  | [] => []
  | c :: s =>
    if isBreak c then c :: writeLines indent true s
    else (if fresh then spaces indent else []) ++ c :: writeLines indent false s

/-- What stands before a block of lines: how deep it is indented, if its first line does not show
it, and what becomes of the line breaks at its end. -/
def blockHeader (s : List Char) : List Char :=
  '|' :: (if s.head?.any isSpaceOrBreak then ['2'] else []) ++ match s.reverse with
    | [] => ['-']
    | [c] => if isBreak c then ['+'] else ['-']
    | c :: d :: _ => if !isBreak c then ['-'] else if isBreak d then ['+'] else []

/-- A text as a scalar whose lines after the first are indented. -/
def spell (indent : Nat) (s : String) : List Char :=
  match Spelling.ofText s with
  | .plain => s.toList
  | .single => '\'' :: writeSingle indent s.toList ++ ['\'']
  | .double => '"' :: writeDouble s.toList ++ ['"']
  | .lines => blockHeader s.toList ++ '\n' :: writeLines indent true s.toList

end Dwell.Yaml
