/-!
# Faults

Why a machine could not be programmed. A fault names the object that owns the machine and holds
its cause together with the piece of text that shows it; the wording is in `Fault.message` alone.
-/

namespace Dwell

/-- What is wrong with the form of a rule, a hold or a test. -/
inductive FormFault where
  | missingOrigin
  | missingTarget
  | missingState
  | expected (mark : String)
  | noTests
  | invalidDuration (number : String)
  | notATest
  | unexpected (rest : String)
  | unsupportedComparator (symbol : String)
  | missingOperand
  | invalidNumber (token : String)
  deriving DecidableEq, Repr

def FormFault.message : FormFault → String
  | .missingOrigin => "missing origin state"
  | .missingTarget => "missing target state"
  | .missingState => "missing state"
  | .expected mark => s!"expected '{mark}'"
  | .noTests => "rule has no tests"
  | .invalidDuration number => s!"invalid duration '{number}'"
  | .notATest => "expected 'lhs op rhs'"
  | .unexpected rest => s!"unexpected '{rest}'"
  | .unsupportedComparator symbol => s!"unsupported comparator '{symbol}'"
  | .missingOperand => "missing operand"
  | .invalidNumber token => s!"invalid number '{token}'"

/-- Why a name in a test denotes nothing that can be read. -/
inductive OperandFault where
  | unknownVariable
  | outside (index length : Nat)
  | notNumeric (kind : String)
  | noProperty
  deriving DecidableEq, Repr

def OperandFault.message : OperandFault → String
  | .unknownVariable => "unknown machine variable"
  | .outside index length => s!"element {index} of {length}-element property"
  | .notNumeric kind => s!"{kind} property"
  | .noProperty => "non-existent property"

inductive Cause where
  | form (text : String) (fault : FormFault)
  | unknownState (text state : String)
  | unboundOperand (text name : String) (fault : OperandFault)
  | unknownProperty (property : String)
  | notEnumerated (property found : String)
  | tooFewStates (property : String) (states : Nat)
  | unconvertible (text unit : String)
  | notBound
  | unknownDirective (text directive : String)
  | externalUnsupported (text : String)
  | invalidValue (text : String)
  deriving DecidableEq, Repr

structure Fault where
  object : String
  cause : Cause
  deriving DecidableEq, Repr

/-- The code under which hosts report a cause. -/
def Cause.code : Cause → String
  | .form .. => "GRAMMAR_ERROR"
  | .unknownState .. => "UNKNOWN_STATE"
  | .unboundOperand .. => "UNBOUND_OPERAND"
  | .unknownProperty .. => "UNKNOWN_PROPERTY"
  | .notEnumerated .. => "NOT_ENUMERATED"
  | .tooFewStates .. => "TOO_FEW_STATES"
  | .unconvertible .. => "UNIT_CONVERSION"
  | .notBound => "NOT_BOUND"
  | .unknownDirective .. => "BAD_REQUEST"
  | .externalUnsupported .. => "UNSUPPORTED"
  | .invalidValue .. => "BAD_REQUEST"

/-- Whether a cause arises from binding a machine to a state variable. -/
def Cause.isBinding : Cause → Bool
  | .unknownProperty .. | .notEnumerated .. | .tooFewStates .. => true
  | _ => false

def Fault.message (f : Fault) : String :=
  let object := f.object
  match f.cause with
  | .form text fault =>
    s!"finite state machine in '{object}' rule '{text}' is invalid: " ++ fault.message
  | .unknownState text state =>
    s!"finite state machine in '{object}' spec '{text}' uses invalid state '{state}'"
  | .unboundOperand text name fault =>
    s!"finite state machine in '{object}' test '{text}' refers to " ++ fault.message
      ++ s!" '{name}'"
  | .unknownProperty property =>
    s!"finite state machine variable '{property}' is not defined in the object '{object}'"
  | .notEnumerated property found =>
    s!"finite state machine requires state variable '{object}.{property}' be an enumeration, "
      ++ s!"found {found}"
  | .tooFewStates property states =>
    s!"finite state machine requires state variable '{object}.{property}' to have two or more "
      ++ s!"distinct states, found {states}"
  | .unconvertible text unit =>
    s!"finite state machine in '{object}' hold '{text}' uses duration unit '{unit}', which cannot "
      ++ "be converted to seconds"
  | .notBound => s!"finite state machine in '{object}' is not bound to a state variable"
  | .unknownDirective text directive =>
    s!"finite state machine in '{object}' configuration '{text}': '{directive}' is not recognized"
  | .externalUnsupported text =>
    s!"finite state machine in '{object}': external machine '{text}' is not supported"
  | .invalidValue text =>
    s!"finite state machine in '{object}' value '{text}' is not a number"

end Dwell
