import Dwell.Machine.Lifecycle
import Dwell.Machine.Programming

/-!
# Configuration texts

A machine is configured by one text: either a plain value, which starts with a digit, or a list of
directives `NAME:VALUE` between semicolons. Directives are applied in order up to the first that
fails, and those before it stay applied.
-/

namespace Dwell

open Text

inductive Directive where
  | value (text : List Char)
  | state (property : String)
  | rule (spec : String)
  | hold (spec : String)
  | reset
  | clear
  | external (spec : String)
  | unknown (name : String)

namespace Directive

/-- The directive that a trimmed text stands for. One without a value has the value 1. -/
def ofText (s : List Char) : Directive :=
  let (name, arg) := match cut ':' s with
    | some (name, arg) => (String.ofList (trim name), trim arg)
    | none => (String.ofList s, ['1'])
  if name = "value" then .value arg
  else if name = "state" then .state (.ofList arg)
  else if name = "reset" then .reset
  else if name = "clear" then .clear
  else if name = "rule" then .rule (.ofList arg)
  else if name = "hold" then .hold (.ofList arg)
  else if name = "external" then .external (.ofList arg)
  else .unknown name

/-- The texts of the directives in a configuration text. -/
def textsOf (s : List Char) : List (List Char) :=
  ((pieces ';' s).map trim).filter (· ≠ [])

end Directive

namespace Machine

/-- Sets the observed value to the number that a text denotes. -/
def assign (m : Machine) (host : Host) (text : List Char) : Effect (Except Fault Unit) :=
  match Double.read? text with
  | some x => ⟨.ok (), { m with value := x }, host, []⟩
  | none => m.refuse host (.invalidValue (.ofList text))

/-- Applies one directive of the configuration text `whole`. -/
def apply (m : Machine) (host : Host) (now : Instant) (whole : String) :
    Directive → Effect (Except Fault Unit)
  | .value text => m.assign host text
  | .state property => m.bind host property
  | .rule spec => m.addRule host spec
  | .hold spec => m.addHold host spec
  | .reset => { m.reset host now with answer := .ok () }
  | .clear => ⟨.ok (), m.clear, host, []⟩
  | .external spec => m.refuse host (.externalUnsupported spec)
  | .unknown name => m.refuse host (.unknownDirective whole name)

/-- Applies directives in order, up to the first that fails. -/
def applyAll (m : Machine) (host : Host) (now : Instant) (whole : String) :
    List (List Char) → Effect (Except Fault Unit)
  | [] => ⟨.ok (), m, host, []⟩
  | s :: rest =>
    let e := m.apply host now whole (.ofText s)
    match e.answer with
    | .ok () =>
      let r := e.machine.applyAll e.host now whole rest
      { r with journal := e.journal ++ r.journal }
    | .error fault =>
      { e with journal := e.journal ++ [.noted (.directiveFailed (.ofList s) fault)] }

/-- Applies a configuration text. -/
def configure (m : Machine) (host : Host) (text : String) (now : Instant) :
    Effect (Except Fault Unit) :=
  match dropBlank text.toList with
  | [] => ⟨.ok (), m, host, []⟩
  | c :: _ =>
    if c.isDigit then m.assign host (trim text.toList)
    else m.applyAll host now text (Directive.textsOf text.toList)

end Machine

end Dwell
