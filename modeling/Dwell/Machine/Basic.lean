import Dwell.Machine.Journal

/-!
# Machines

A machine moves one enumeration of its host, its state variable, along compiled rules. While it
has no program it is idle. Operations take the machine and its host and leave both, together with
an answer and a journal (`Effect`); an operation that is not told otherwise changes neither.
-/

namespace Dwell

/-- What is done with the candidates after one that fired. -/
inductive Scan where
  /-- The first satisfied candidate ends the scan. -/
  | firstMatch
  /-- Every candidate is examined, and each satisfied one fires. -/
  | exhaustive
  deriving DecidableEq, Repr

structure Options where
  scan : Scan := .firstMatch
  /-- Wake times are multiples of this many seconds. -/
  granularity : Int := 1
  deriving DecidableEq, Repr

/-- The rules, holds and hooks of a machine bound to a state variable. -/
structure Program where
  /-- The name of the state variable. -/
  variableName : String
  /-- The keywords that the state variable had when the machine was bound. -/
  keywords : KeywordTable
  rules : RuleGraph
  /-- The least seconds to stay in each state. -/
  holds : List Float
  hooks : List (Option Hook)

structure Machine where
  options : Options := {}
  program? : Option Program := none
  /-- The state value that was last observed. -/
  value : Float := 0.0
  entryTime : Instant := .zero
  /-- The end of the dwell that is owed; no dwell is owed at `never`. -/
  holdUntil : Instant := .zero
  /-- The seconds spent in the state, as of the last tick. -/
  elapsed : Float := 0.0

/-- What an operation on a machine leaves behind. -/
structure Effect (α : Type) where
  answer : α
  machine : Machine
  host : Host
  journal : Journal := []

namespace Program

def states (p : Program) : Nat :=
  p.rules.states

/-- The first keyword that names a state. -/
def stateName? (p : Program) (state : Nat) : Option String :=
  p.keywords.name? state

/-- A state's name in log lines. -/
def stateText (p : Program) (state : Nat) : String :=
  (p.stateName? state).getD "?"

/-- The state that an enumeration's value is, if it is one. -/
def stateOf? (p : Program) (level : Int) : Option Nat :=
  if 0 ≤ level ∧ level < p.states then some level.toNat else none

def hook? (p : Program) (state : Nat) : Option Hook :=
  (p.hooks[state]?).join

/-- The program of a newly bound machine: no rules, no holds, no hooks. -/
def blank (variableName : String) (keywords : KeywordTable) (states : Nat) : Program where
  variableName := variableName
  keywords := keywords
  rules := .ofStates states
  holds := List.replicate states 0.0
  hooks := List.replicate states none

end Program

namespace Machine

def isBound (m : Machine) : Bool :=
  m.program?.isSome

def boundTo? (m : Machine) : Option String :=
  m.program?.map (·.variableName)

/-- The number of states; none while the machine is not bound. -/
def states (m : Machine) : Nat :=
  (m.program?.map (·.states)).getD 0

/-- The state last observed, if the value is one. -/
def state? (m : Machine) : Option Nat := do
  let p ← m.program?
  let level ← Double.toInt? m.value
  p.stateOf? level

def stateName? (m : Machine) (state : Nat) : Option String := do
  (← m.program?).stateName? state

/-- The name of the state last observed. -/
def currentName? (m : Machine) : Option String := do
  m.stateName? (← m.state?)

/-- The number of ways out of a state. -/
def ruleCount (m : Machine) (state : Nat) : Nat :=
  (m.program?.map fun p => (p.rules.candidates state).length).getD 0

def totalRules (m : Machine) : Nat :=
  (m.program?.map (·.rules.size)).getD 0

/-- The least seconds to stay in a state. -/
def hold? (m : Machine) (state : Nat) : Option Float := do
  (← m.program?).holds[state]?

def view (m : Machine) : View where
  boundTo? := m.boundTo?
  value := m.value
  stateName? := m.currentName?
  entryTime := m.entryTime
  holdUntil := m.holdUntil
  elapsed := m.elapsed

/-- The observed value as text. -/
def render (m : Machine) : String :=
  Double.text m.value

/-- The host and the journal after the hook of a state was called, if it has one. -/
def callHook (m : Machine) (host : Host) (state : Nat) (phase : Phase) : Host × Journal :=
  match m.program?.bind (·.hook? state) with
  | none => (host, [])
  | some k =>
    ({ host with readings := k.react phase m.view host.readings },
      [.called ⟨state, phase, k.label, m.view⟩])

end Machine

end Dwell
