import Dwell.Machine.Basic
import Dwell.Rule.Grammar

/-!
# Programming a machine

A machine is bound to a state variable and then given rules, holds and hooks, one at a time. An
operation that fails leaves the machine as it was.
-/

namespace Dwell

/-- What the specifications of a bound machine may name. -/
def Program.scope (p : Program) (host : Host) : Scope :=
  ⟨host, p.keywords, p.states⟩

namespace Machine

/-- Keywords with greater values are not states. -/
def greatestState : Int := 256

/-- The number of states that a keyword table has: one more than its greatest state, none if it
has no state. -/
def statesOf (keywords : KeywordTable) : Nat :=
  keywords.foldl (fun n k =>
    if 0 ≤ k.value ∧ k.value ≤ greatestState then max n (k.value.toNat + 1) else n) 0

/-- A notice of each keyword that is not a state. -/
def ignoredKeywords (object property : String) (keywords : KeywordTable) : List Notice :=
  keywords.filterMap fun k =>
    if k.value < 0 then some (.negativeKeyword object property k)
    else if greatestState < k.value then some (.largeKeyword object property k greatestState)
    else none

/-- Nothing was done, for a cause. -/
def refuse (m : Machine) (host : Host) (cause : Cause) (notices : List Notice := []) :
    Effect (Except Fault Unit) :=
  ⟨.error ⟨host.name, cause⟩, m, host, notices.map .noted⟩

/-- Binds the machine to an enumeration of its host. What it was programmed with is dropped. -/
def bind (m : Machine) (host : Host) (property : String) : Effect (Except Fault Unit) :=
  match host.property? property with
  | none => m.refuse host (.unknownProperty property)
  | some (.enumeration e) =>
    let states := statesOf e.keywords
    let ignored := ignoredKeywords host.name property e.keywords
    if states < 2 then m.refuse host (.tooFewStates property states) ignored
    else
      ⟨.ok (), { m with program? := some (.blank property e.keywords states) }, host,
        (ignored ++ [Notice.bound host.name property states]).map .noted⟩
  | some p => m.refuse host (.notEnumerated property p.kind)

/-- Adds a rule, as the last way out of its origin. -/
def addRule (m : Machine) (host : Host) (spec : String) : Effect (Except Fault Unit) :=
  match m.program? with
  | none => m.refuse host .notBound
  | some p =>
    let (r, notices) := (p.scope host).rule spec
    match r with
    | .error e => ⟨.error e, m, host, notices.map .noted⟩
    | .ok (origin, c) =>
      ⟨.ok (), { m with program? := some { p with rules := p.rules.push origin c } }, host,
        notices.map .noted⟩

/-- Sets the least time to stay in a state. -/
def addHold (m : Machine) (host : Host) (spec : String) : Effect (Except Fault Unit) :=
  match m.program? with
  | none => m.refuse host .notBound
  | some p =>
    match (p.scope host).hold spec with
    | .error e => ⟨.error e, m, host, []⟩
    | .ok (state, seconds) =>
      ⟨.ok (), { m with program? := some { p with holds := p.holds.set state seconds } }, host, []⟩

/-- Attaches a hook to a state, in place of the one it had. -/
def setHook (m : Machine) (host : Host) (state : String) (hook : Hook) :
    Effect (Except Fault Unit) :=
  match m.program? with
  | none => m.refuse host .notBound
  | some p =>
    match p.keywords.state? p.states state with
    | none => m.refuse host (.unknownState state state)
    | some s =>
      ⟨.ok (), { m with program? := some { p with hooks := p.hooks.set s (some hook) } }, host, []⟩

end Machine

end Dwell
