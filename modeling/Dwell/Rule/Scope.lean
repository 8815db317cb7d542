import Dwell.Double.Numeral
import Dwell.Fault
import Dwell.Rule.Operand
import Dwell.Text.Pieces

/-!
# What names refer to

The states and operands that a specification may name: the keywords of the state variable, as far
as they are states, and the numeric properties of the host.
-/

namespace Dwell

structure Scope where
  host : Host
  keywords : KeywordTable
  /-- The number of states; a keyword is a state when its value is below it. -/
  states : Nat

namespace Scope

def fault (sc : Scope) (cause : Cause) : Fault :=
  ⟨sc.host.name, cause⟩

/-- The state that a keyword names, in a specification `spec`. -/
def state (sc : Scope) (spec name : String) : Except Fault Nat :=
  match sc.keywords.state? sc.states name with
  | some s => .ok s
  | none => .error (sc.fault (.unknownState spec name))

/-- The element of a numeric property, in a test `test`. Which elements a source has is known only
if it says so. -/
def element (sc : Scope) (test token property : String) (index : Nat) : Except Fault Operand :=
  let unbound (name : String) (fault : OperandFault) : Except Fault Operand :=
    .error (sc.fault (.unboundOperand test name fault))
  match sc.host.property? property with
  | none => unbound property .noProperty
  | some (.array length) =>
    if index < length then .ok (.element property index)
    else unbound token (.outside index length)
  | some (.source s) => match s.elements with
    | some length =>
      if index < length then .ok (.element property index)
      else unbound token (.outside index length)
    | none => .ok (.element property index)
  | some p => unbound property (.notNumeric p.kind)

/-- The index that a keyword stands for, in a test `test`. It need not be a state, but must not be
negative. -/
def index (sc : Scope) (test keyword : String) : Except Fault Nat :=
  match sc.keywords.value? keyword with
  | some v => if 0 ≤ v then .ok v.toNat else .error (sc.fault (.unknownState test keyword))
  | none => .error (sc.fault (.unknownState test keyword))

/-- The operand that a token stands for, in a test `test`: `$timer`, `$state`, a number, or a
property, with a keyword for the element after `#`. -/
def operand (sc : Scope) (test : String) (token : List Char) : Except Fault Operand :=
  match token with
  | [] => .error (sc.fault (.form test .missingOperand))
  | c :: _ =>
    if token = "$timer".toList then .ok .timer
    else if token = "$state".toList then .ok .state
    else if c = '$' then
      .error (sc.fault (.unboundOperand test (.ofList token) .unknownVariable))
    else if ¬ c.isAlpha then
      match Double.read? token with
      | some x => .ok (.literal x)
      | none => .error (sc.fault (.form test (.invalidNumber (.ofList token))))
    else match Text.cut '#' token with
      | none => sc.element test (.ofList token) (.ofList token) 0
      | some (property, keyword) => do
        let i ← sc.index test (.ofList keyword)
        sc.element test (.ofList token) (.ofList property) i

end Scope

end Dwell
