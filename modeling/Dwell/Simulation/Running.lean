import Dwell.Simulation.Basic

/-!
# Running a simulation

A run starts all machines and then takes step after step. Every step applies the events that are
due and ticks the machines; the next one is as late as the longest step allows, but no later than
the next event and the earliest wake time.
-/

namespace Dwell

namespace Registry

/-- Writes the value of an event to its property. -/
def applyEvent (r : Registry) (e : Event) : Except SimulationFault Registry :=
  match r.hostAt? e.host with
  | none => .error (.unknownObject e.host)
  | some k =>
    match r.hosts[k]?.bind (·.write? e.property e.index e.value) with
    | none => .error (.event e.time e.host e.property (.noElement e.index))
    | some host => .ok { r with hosts := r.hosts.set k host }

/-- Applies events in order, up to the first that cannot be applied: those applied, and the fault
of that one. -/
def applyEvents (r : Registry) : List Event → Registry × List Event × Option SimulationFault
  | [] => (r, [], none)
  | e :: es =>
    match r.applyEvent e with
    | .error fault => (r, [], some fault)
    | .ok r =>
      let (r, applied, fault?) := r.applyEvents es
      (r, e :: applied, fault?)

end Registry

namespace Simulation

/-- A time, or that of the first event if it comes earlier. -/
def capped (events : List Event) (t : Instant) : Instant :=
  match events with
  | [] => t
  | e :: _ => min t e.time

/-- The time of the step after the one at `now`, while some events are still to come. -/
def next (w : Window) (pending : List Event) (now wake : Instant) : Instant :=
  let next := capped pending (now.later w.maxStep)
  if now < wake then min next wake else next

theorem lt_capped {events : List Event} {s t : Instant} (hs : s < t)
    (hevents : ∀ e ∈ events, s < e.time) : s < capped events t := by
  cases events with
  | nil => exact hs
  | cons e es => exact Instant.lt_min.2 ⟨hs, hevents e (by simp)⟩

/-- The clock advances while it has not come to its last instant. -/
theorem lt_next {w : Window} {pending : List Event} {now wake : Instant} (hw : 0 < w.maxStep)
    (hnow : now < .never) (hpending : ∀ e ∈ pending, now < e.time) :
    now < next w pending now wake := by
  have h := lt_capped (Instant.lt_later hnow hw) hpending
  simp only [next]
  split
  · exact Instant.lt_min.2 ⟨h, by assumption⟩
  · exact h

theorem remaining_lt {stop now later : Instant} (h₁ : ¬ stop < later) (h₂ : ¬ later ≤ now) :
    (stop.seconds - later.seconds).toNat < (stop.seconds - now.seconds).toNat := by
  simp only [Instant.lt_iff, Instant.le_iff] at h₁ h₂
  omega

/-- The steps from `now` on, while some events are still to come. -/
def stepFrom (w : Window) (r : Registry) (pending : List Event) (now : Instant) : Run :=
  let rest := pending.dropWhile (·.time ≤ now)
  match r.applyEvents (pending.takeWhile (·.time ≤ now)) with
  | (r, applied, some fault) => ⟨[], .failed applied fault, r⟩
  | (r, applied, none) =>
    let (wake, r, seen) := r.tickAll now
    let step : Step := ⟨now, applied, wake, seen⟩
    let later := next w rest now wake
    if w.stop < later then ⟨[step], .finished, r⟩
    else if later ≤ now then ⟨[step], .endless, r⟩
    else
      let run := stepFrom w r rest later
      { run with steps := step :: run.steps }
termination_by (w.stop.seconds - now.seconds).toNat
decreasing_by
  exact remaining_lt ‹_› ‹_›

/-- Runs a simulation from the start of its window. -/
def run (s : Simulation) : Run :=
  stepFrom s.window (s.registry.initAll s.window.start) s.events s.window.start

/-- A simulation after a run. -/
def after (s : Simulation) (run : Run) : Simulation :=
  { s with registry := run.registry, trace := s.trace ++ run.stateEntries }

end Simulation

end Dwell
