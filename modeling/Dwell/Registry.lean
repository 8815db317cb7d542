import Dwell.Machine.Lifecycle
import Dwell.Machine.Tick

/-!
# Registries

A registry holds machines in the order they were registered, together with the hosts they belong
to; several machines may share a host. All of them are started and ticked together, in order.
-/

namespace Dwell

/-- A registered machine and the position of its host. -/
structure Station where
  host : Nat
  machine : Machine := {}

structure Registry where
  hosts : List Host := []
  stations : List Station := []

/-- A journal entry and the position of the host where it was observed. -/
structure Sighting where
  host : Nat
  entry : Entry

namespace Registry

/-- A registry with one more machine, which gets the position after the last. -/
def register (r : Registry) (s : Station) : Registry :=
  { r with stations := r.stations ++ [s] }

def size (r : Registry) : Nat :=
  r.stations.length

/-- The name under which the machine at a position is known. -/
def identifier (position : Nat) : String :=
  s!"fsm#{position}"

/-- The machine at a position, and its host. -/
def find? (r : Registry) (position : Nat) : Option (Machine × Host) := do
  let s ← r.stations[position]?
  return (s.machine, ← r.hosts[s.host]?)

/-- The registry after an operation on the machine at a position. -/
def put (r : Registry) (position : Nat) (m : Machine) (host : Host) : Registry :=
  match r.stations[position]? with
  | none => r
  | some s =>
    { hosts := r.hosts.set s.host host
      stations := r.stations.set position { s with machine := m } }

/-- Starts every machine. -/
def initAll (r : Registry) (now : Instant) : Registry :=
  { r with
    stations := r.stations.map fun s => match r.hosts[s.host]? with
      | some host => { s with machine := s.machine.init host now }
      | none => s }

/-- The notice of `initAll`. -/
def initNotice (r : Registry) (now : Instant) : Notice :=
  .initialized r.size now

/-- Ticks machines in order and answers the earliest of their wake times. -/
def tickStations (now : Instant) :
    List Host → List Station → Instant × List Host × List Station × List Sighting
  | hosts, [] => (.never, hosts, [], [])
  | hosts, s :: rest =>
    match hosts[s.host]? with
    | none =>
      let (wake, hosts, rest, seen) := tickStations now hosts rest
      (wake, hosts, s :: rest, seen)
    | some host =>
      let e := s.machine.tick host now
      let (wake, hosts, rest, seen) := tickStations now (hosts.set s.host e.host) rest
      (min e.answer wake, hosts, { s with machine := e.machine } :: rest,
        e.journal.map (⟨s.host, ·⟩) ++ seen)

/-- Ticks every machine and answers the earliest wake time. -/
def tickAll (r : Registry) (now : Instant) : Instant × Registry × List Sighting :=
  let (wake, hosts, stations, seen) := tickStations now r.hosts r.stations
  (wake, ⟨hosts, stations⟩, seen)

end Registry

end Dwell
