import Dwell.Registry
import Dwell.Scenario.Basic
import Dwell.Simulation.Fault

/-!
# Simulations and their runs

A simulation holds the hosts and machines of a scenario, its window and its events in the order of
time. A run is the list of its steps and how it ended; what is reported of it, such as the state
entries, is read off that list.
-/

namespace Dwell

/-- A machine was seen to enter a state. -/
structure StateEntry where
  time : Instant
  object : String
  property : String
  state : String
  deriving DecidableEq, Repr

structure Simulation where
  window : Window
  registry : Registry
  /-- The events, in the order of time. -/
  events : List Event
  /-- The state entries of the runs so far. -/
  trace : List StateEntry := []

/-- One pass of a run: the events that became due, and then a tick of all machines. -/
structure Step where
  now : Instant
  applied : List Event
  /-- The earliest time at which a machine asked to be ticked again. -/
  wake : Instant
  seen : List Sighting

inductive Ending where
  /-- The next step would lie behind the end of the window. -/
  | finished
  /-- An event that was due could not be applied, others before it having been. -/
  | failed (applied : List Event) (fault : SimulationFault)
  /-- The clock cannot advance, and never reaches the end of the window. -/
  | endless

structure Run where
  steps : List Step
  ending : Ending
  /-- The machines and hosts as the run left them. -/
  registry : Registry

namespace Registry

/-- The position of the host with a name. -/
def hostAt? (r : Registry) (name : String) : Option Nat :=
  r.hosts.findIdx? (·.name == name)

/-- The host with a name. -/
def host? (r : Registry) (name : String) : Option Host :=
  r.hosts.find? (·.name == name)

/-- The name of the host at a position. -/
def hostName (r : Registry) (position : Nat) : String :=
  (r.hosts[position]?.map (·.name)).getD ""

end Registry

/-- The hook that is called wherever a simulation watches a state. It changes nothing. -/
def Hook.watching : Hook := {}

/-- A state's name in reports. -/
def View.stateText (v : View) : String :=
  v.stateName?.getD "?"

namespace Sighting

/-- The state entry that was observed, if one was. -/
def entered? (r : Registry) (now : Instant) (s : Sighting) : Option StateEntry :=
  match s.entry with
  | .called ⟨_, .entry, _, v⟩ =>
    some ⟨now, r.hostName s.host, v.boundTo?.getD "", v.stateText⟩
  | _ => none

/-- The notice of what was observed, if it gives one. -/
def notice? (r : Registry) (now : Instant) (s : Sighting) : Option Notice :=
  match s.entry with
  | .noted n => some n
  | .called ⟨_, .entry, _, v⟩ =>
    some (.entered now (r.hostName s.host) (v.boundTo?.getD "") v.stateText)
  | .called ⟨_, .exit, _, v⟩ => some (.leaving now (r.hostName s.host) v.stateText v.elapsed)
  | _ => none

end Sighting

namespace Step

def stateEntries (r : Registry) (s : Step) : List StateEntry :=
  s.seen.filterMap (·.entered? r s.now)

end Step

namespace Run

/-- The times of the steps. -/
def times (run : Run) : List Instant :=
  run.steps.map (·.now)

def stateEntries (run : Run) : List StateEntry :=
  run.steps.flatMap (·.stateEntries run.registry)

end Run

end Dwell
