import Dwell.Notice
import Dwell.Rule.Graph
import Dwell.Rule.Scope
import Dwell.Text.Blank

/-!
# Specifications of rules and holds

A rule reads `FROM->TO=TEST,TEST,…` and a test `LEFT OP RIGHT`; a hold reads `STATE=NUMBER UNIT`,
the unit being optional. Blanks may stand between the parts. Reading a specification first splits
its text, then looks up the states, operands and units it names.
-/

namespace Dwell

open Text

/-- The characters of state names. -/
def isNameChar (c : Char) : Bool :=
  c.isAlphanum || c == '_'

def isOperandChar (c : Char) : Bool :=
  c.isAlphanum || c ∈ ['_', '.', '#', '$', '+', '-']

def isComparatorChar (c : Char) : Bool :=
  c ∈ ['<', '=', '>', '!']

/-- The characters that a duration's number is made of. -/
def isDurationChar (c : Char) : Bool :=
  c.isDigit || c ∈ ['.', '+', '-', 'e', 'E']

/-- The name that a text starts with, after blanks, and what follows it. -/
def splitName (s : List Char) (missing : FormFault) : Except FormFault (String × List Char) :=
  match (dropBlank s).span isNameChar with
  | ([], _) => .error missing
  | (name, rest) => .ok (.ofList name, rest)

/-- What follows a mark that a text must start with, after blanks. -/
def skipMark (mark : String) (s : List Char) : Except FormFault (List Char) :=
  match mark.toList.isPrefixOf? (dropBlank s) with
  | some rest => .ok rest
  | none => .error (.expected mark)

/-- The two states at the head of a rule, and the text of its tests. -/
def splitRule (spec : List Char) : Except FormFault (String × String × List Char) := do
  let (origin, s) ← splitName spec .missingOrigin
  let s ← skipMark "->" s
  let (target, s) ← splitName s .missingTarget
  let s ← skipMark "=" s
  return (origin, target, s)

/-- The left token, comparator and right token of a trimmed test. -/
def splitTest (test : List Char) : Except FormFault (List Char × Comparator × List Char) := do
  let (left, s) := test.span isOperandChar
  let (symbol, s) := (dropBlank s).span isComparatorChar
  let (right, s) := (dropBlank s).span isOperandChar
  let rest := dropBlank s
  if left = [] ∨ right = [] then throw .notATest
  if rest ≠ [] then throw (.unexpected (.ofList rest))
  match Comparator.ofSymbol? (.ofList symbol) with
  | some c => return (left, c, right)
  | none => throw (.unsupportedComparator (.ofList symbol))

/-- The number that a duration starts with, and its unit, seconds if none is given. -/
def splitDuration (s : List Char) : Except FormFault (Float × String) :=
  let (number, rest) := (dropBlank s).span isDurationChar
  let unit := trim rest
  match Double.read? number with
  | some x =>
    if x.isFinite ∧ 0 ≤ x then .ok (x, if unit = [] then "s" else .ofList unit)
    else .error (.invalidDuration (.ofList number))
  | none => .error (.invalidDuration (.ofList number))

/-- The state at the head of a hold, the number of its duration, and the duration's unit. -/
def splitHold (spec : List Char) : Except FormFault (String × Float × String) := do
  let (state, s) ← splitName spec .missingState
  let s ← skipMark "=" s
  let (number, unit) ← splitDuration s
  return (state, number, unit)

namespace Scope

/-- The result of splitting a text, its fault placed in that text. -/
def placed {α : Type} (sc : Scope) (text : List Char) (r : Except FormFault α) :
    Except Fault α :=
  r.mapError fun f => sc.fault (.form (.ofList text) f)

/-- The test that a trimmed text specifies. -/
def comparison (sc : Scope) (test : List Char) : Except Fault Comparison := do
  let (left, c, right) ← sc.placed test (splitTest test)
  let left ← sc.operand (.ofList test) left
  let right ← sc.operand (.ofList test) right
  return ⟨left, c, right⟩

/-- The tests that the pieces of a rule specify, and how many blank pieces were skipped before
the end or the first piece that is no test. -/
def comparisons (sc : Scope) : List (List Char) → Except Fault (List Comparison) × Nat
  | [] => (.ok [], 0)
  | piece :: pieces =>
    let test := trim piece
    if test = [] then
      let (r, skipped) := sc.comparisons pieces
      (r, skipped + 1)
    else match sc.comparison test with
      | .error e => (.error e, 0)
      | .ok t =>
        let (r, skipped) := sc.comparisons pieces
        (r.map (t :: ·), skipped)

/-- The tests of the rule `spec`, of which there must be one. -/
def tests (sc : Scope) (spec s : List Char) : Except Fault (List Comparison) × Nat :=
  match sc.comparisons (pieces ',' s) with
  | (.ok [], skipped) => (.error (sc.fault (.form (.ofList spec) .noTests)), skipped)
  | r => r

/-- The origin, the target and the text of the tests of the rule `spec`. -/
def ruleHead (sc : Scope) (spec : List Char) : Except Fault (Nat × Nat × List Char) := do
  let (origin, target, s) ← sc.placed spec (splitRule spec)
  let origin ← sc.state (.ofList spec) origin
  let target ← sc.state (.ofList spec) target
  return (origin, target, s)

/-- The origin and the candidate that a rule specifies, and a notice of each blank test in it. -/
def rule (sc : Scope) (spec : String) : Except Fault (Nat × Candidate) × List Notice :=
  match sc.ruleHead spec.toList with
  | .error e => (.error e, [])
  | .ok (origin, target, s) =>
    let (r, skipped) := sc.tests spec.toList s
    (r.map fun ts => (origin, ⟨target, ts⟩),
      List.replicate skipped (.emptyTest sc.host.name spec))

/-- The state and the seconds that a hold specifies. -/
def hold (sc : Scope) (spec : String) : Except Fault (Nat × Float) := do
  let (state, number, unit) ← sc.placed spec.toList (splitHold spec.toList)
  let state ← sc.state spec state
  match sc.host.units.convert number unit "s" with
  | some seconds => return (state, seconds)
  | none => throw (sc.fault (.unconvertible spec unit))

end Scope

end Dwell
