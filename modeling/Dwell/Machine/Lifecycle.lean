import Dwell.Machine.Basic

/-!
# Starting, resetting and clearing a machine
-/

namespace Dwell

namespace Machine

/-- Starts the dwell timer at `now` and takes over the value of the state variable. -/
def init (m : Machine) (host : Host) (now : Instant) : Machine :=
  let value := match m.program? with
    | some p => Double.ofInt (host.level p.variableName)
    | none => m.value
  { m with holdUntil := .never, entryTime := now, elapsed := 0.0, value }

/-- Puts a bound machine back into state 0 and starts its dwell timer. -/
def reset (m : Machine) (host : Host) (now : Instant) : Effect Unit :=
  match m.program? with
  | none => ⟨(), m, host, [.noted (.resetUnprogrammed host.name)]⟩
  | some p =>
    ⟨(), { m with value := 0.0, entryTime := now, holdUntil := .never, elapsed := 0.0 },
      host.command p.variableName 0, []⟩

/-- Drops the program. The machine is as if it was new, its options kept. -/
def clear (m : Machine) : Machine :=
  { options := m.options }

end Machine

end Dwell
