import Dwell.Machine.Directive
import Dwell.Simulation.Basic
import Dwell.Simulation.Logged

/-!
# Building a simulation

How a scenario becomes a simulation: its hosts are made, their machines configured and watched in
every state that has a name, and its events brought into the order of time. Each event must name a
property that can be set.
-/

namespace Dwell

/-- The host with one more property, as it is declared. -/
def Host.declare (h : Host) (name : String) : Declaration → Host
  | .enumeration keywords value => h.withEnumeration name ⟨keywords, []⟩ value
  | .number value => h.withArray name [value]
  | .numbers values => h.withArray name values
  | .text _ => h.withOther name "string"

/-- The host as it is before its machines are configured. -/
def HostSpec.host (s : HostSpec) : Host :=
  s.properties.foldl (fun h p => h.declare p.1 p.2) { name := s.name }

namespace Machine

/-- The names of states, in the order of the states. -/
def stateNames (m : Machine) : List String :=
  (List.range m.states).filterMap m.stateName?

/-- The machine with the hook of a simulation on each of some states. -/
def watch (m : Machine) (host : Host) : List String → Except Fault Machine
  | [] => .ok m
  | state :: states =>
    let e := m.setHook host state .watching
    match e.answer with
    | .ok () => e.machine.watch host states
    | .error fault => .error fault

/-- A notice of a machine that will never move. -/
def idleNotices (m : Machine) (spec object : String) : List Notice :=
  if !m.isBound then [.withoutVariable spec object]
  else if m.totalRules = 0 then [.withoutRules spec object]
  else []

end Machine

/-- A new machine on a host, configured by a text and watched. -/
def commission (options : Options) (now : Instant) (host : Host) (spec : String) :
    Logged (Machine × Host) :=
  let e := Machine.configure { options } host spec now
  let notices := e.journal.notices
  match e.answer with
  | .error fault => ⟨.error (.machine host.name fault), notices⟩
  | .ok () =>
    ⟨match e.machine.watch e.host e.machine.stateNames with
      | .ok m => .ok (m, e.host)
      | .error fault => .error (.machine host.name fault),
      notices ++ e.machine.idleNotices spec host.name⟩

/-- The machines of the host at a position, and the host as configuring them leaves it. -/
def equip (options : Options) (now : Instant) (position : Nat) (host : Host) :
    List String → Logged (Host × List Station)
  | [] => pure (host, [])
  | spec :: specs => do
    let (m, host) ← commission options now host spec
    let (host, stations) ← equip options now position host specs
    return (host, ⟨position, m⟩ :: stations)

/-- The hosts and their machines, the first of these hosts at a position. -/
def assemble (options : Options) (now : Instant) (position : Nat) :
    List HostSpec → Logged Registry
  | [] => pure {}
  | s :: rest => do
    let (host, stations) ← equip options now position s.host s.machines
    let r ← assemble options now (position + 1) rest
    return ⟨host :: r.hosts, stations ++ r.stations⟩

/-- Checks that an event names a property that can be set. -/
def Registry.checkEvent (r : Registry) (e : Event) : Except SimulationFault Unit :=
  match r.host? e.host with
  | none => .error (.unknownObject e.host)
  | some host => match host.property? e.property with
    | none => .error (.unknownProperty e.host e.property)
    | some (.other type) => .error (.event e.time e.host e.property (.notSettable type))
    | some _ => .ok ()

/-- Events in the order of time; those of the same time keep their order. -/
def sortEvents (events : List Event) : List Event :=
  events.mergeSort fun a b => a.time ≤ b.time

theorem sortEvents_perm (events : List Event) : (sortEvents events).Perm events :=
  List.mergeSort_perm ..

theorem pairwise_sortEvents (events : List Event) :
    (sortEvents events).Pairwise (·.time ≤ ·.time) := by
  have h := @List.pairwise_mergeSort Event (fun a b => a.time ≤ b.time) ?_ ?_ events
  · simpa [sortEvents] using h
  · intro a b c hab hbc
    simp only [decide_eq_true_eq, Instant.le_iff] at *
    omega
  · intro a b
    simp only [Bool.or_eq_true, decide_eq_true_eq, Instant.le_iff]
    omega

namespace Registry

/-- The number of rules of all machines. -/
def totalRules (r : Registry) : Nat :=
  r.stations.foldr (fun s n => s.machine.totalRules + n) 0

end Registry

/-- The simulation of a scenario. -/
def Scenario.build (s : Scenario) : Logged Simulation := do
  match s.flaw? with
  | some flaw => Logged.ofExcept (.error (.scenario flaw))
  | none =>
    let r ← assemble s.options s.window.start 0 s.hosts
    let events := sortEvents s.events
    Logged.ofExcept (events.forM r.checkEvent)
    Logged.note (.built r.hosts.length r.size r.totalRules events.length)
    return { window := s.window, registry := r, events }

end Dwell
