import Dwell.Double.Layout
import Dwell.Fault
import Dwell.Host.Keyword
import Dwell.Instant

/-!
# Notices

What machines, registries and simulations report while they work, as data. A log line is a
notice's severity and its text.
-/

namespace Dwell

inductive Severity where
  | trace
  | debug
  | info
  | warn
  | error
  deriving DecidableEq, Repr

def Severity.name : Severity → String
  | .trace => "TRACE"
  | .debug => "DEBUG"
  | .info => "INFO"
  | .warn => "WARN"
  | .error => "ERROR"

inductive Notice where
  | negativeKeyword (object property : String) (keyword : Keyword)
  | largeKeyword (object property : String) (keyword : Keyword) (limit : Int)
  | bound (object property : String) (states : Nat)
  | emptyTest (object spec : String)
  | stateOutside (object : String) (value : Int) (states : Nat)
  | unreadable (object test operand origin target : String)
  | transition (object origin target : String) (now holdUntil : Instant)
  | resetUnprogrammed (object : String)
  | directiveFailed (directive : String) (fault : Fault)
  | initialized (machines : Nat) (now : Instant)
  | entered (now : Instant) (object property state : String)
  | leaving (now : Instant) (object state : String) (elapsed : Float)
  | withoutRules (machine object : String)
  | withoutVariable (machine object : String)
  | eventApplied (time : Int) (object property : String) (index : Nat) (value : Float)
  | built (objects machines rules events : Nat)
  | finished (steps entries : Nat)

namespace Notice

def severity : Notice → Severity
  | negativeKeyword .. | largeKeyword .. | emptyTest .. | stateOutside .. | unreadable ..
  | resetUnprogrammed .. | withoutRules .. | withoutVariable .. => .warn
  | bound .. | transition .. | initialized .. | entered .. | eventApplied .. => .debug
  | leaving .. => .trace
  | directiveFailed .. => .error
  | built .. | finished .. => .info

def text : Notice → String
  | negativeKeyword object property ⟨name, value⟩ =>
    s!"finite state machine will ignore state '{name}' with negative value {value} of state "
      ++ s!"variable '{object}.{property}'"
  | largeKeyword object property ⟨name, _⟩ limit =>
    s!"finite state machine will ignore state '{name}' of state variable '{object}.{property}' "
      ++ s!"with value larger than {limit}"
  | bound object property states =>
    s!"finite state machine in '{object}' bound to '{property}' with {states} states"
  | emptyTest object spec => s!"empty test in '{object}' rule '{spec}'"
  | stateOutside object value states =>
    s!"finite state machine in '{object}' has state value {value} outside its {states} states; "
      ++ "rules skipped"
  | unreadable object test operand origin target =>
    s!"finite state machine in '{object}' test '{test}' could not read '{operand}'; "
      ++ s!"{origin}->{target} not taken"
  | transition object origin target now holdUntil =>
    s!"finite state machine in '{object}' {origin}->{target} at " ++ now.text
      ++ " (hold until " ++ holdUntil.text ++ ")"
  | resetUnprogrammed object =>
    s!"reset of finite state machine in '{object}': state machine is not programmed"
  | directiveFailed directive fault =>
    s!"unable to apply '{directive}' to finite state machine: " ++ fault.message
  | initialized machines now =>
    s!"initialized {machines} finite state machines at " ++ now.text
  | entered now object property state => now.text ++ s!" {object}.{property} entered {state}"
  | leaving now object state elapsed =>
    now.text ++ s!" {object} leaving {state} after " ++ Double.text elapsed ++ "s"
  | withoutRules machine object =>
    s!"machine '{machine}' in object '{object}' has no transition rules"
  | withoutVariable machine object =>
    s!"machine '{machine}' in object '{object}' has no state variable and will stay idle"
  | eventApplied time object property index value =>
    s!"{time} set {object}.{property}[{index}] = " ++ Double.text value
  | built objects machines rules events =>
    s!"simulation built: {objects} objects, {machines} machines, {rules} rules, {events} events"
  | finished steps entries => s!"simulation finished: {steps} steps, {entries} state entries"

/-- The log line of a notice. -/
def line (n : Notice) : String :=
  n.severity.name ++ " " ++ n.text

end Notice

end Dwell
