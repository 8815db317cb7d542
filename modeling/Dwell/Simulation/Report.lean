import Dwell.Simulation.Running

/-!
# Reports and logs of runs
-/

namespace Dwell

/-- The state in which a machine is after a run. -/
structure Summary where
  object : String
  property? : Option String
  state? : Option String
  value : Float

structure Report where
  start : Instant
  stop : Instant
  steps : Nat
  transitions : List StateEntry
  machines : List Summary

/-- The summaries of all machines, in order. -/
def Registry.summaries (r : Registry) : List Summary :=
  r.stations.map fun s =>
    ⟨r.hostName s.host, s.machine.boundTo?, s.machine.currentName?, s.machine.value⟩

namespace Simulation

/-- The report of a run. It gives the state entries of the earlier runs, too. -/
def report (s : Simulation) (run : Run) : Report where
  start := s.window.start
  stop := s.window.stop
  steps := run.steps.length
  transitions := s.trace ++ run.stateEntries
  machines := run.registry.summaries

end Simulation

def Event.notice (e : Event) : Notice :=
  .eventApplied e.time.seconds e.host e.property e.index e.value

/-- The notices of a step: of the events, and then of the tick. -/
def Step.notices (r : Registry) (s : Step) : List Notice :=
  s.applied.map (·.notice) ++ s.seen.filterMap (·.notice? r s.now)

/-- The notices of a run, in the order they are given. -/
def Simulation.notices (s : Simulation) (run : Run) : List Notice :=
  s.registry.initNotice s.window.start :: run.steps.flatMap (·.notices run.registry)
    ++ match run.ending with
      | .finished => [.finished run.steps.length (s.trace ++ run.stateEntries).length]
      | .failed applied _ => applied.map (·.notice)
      | .endless => []

end Dwell
