import Dwell.Fault
import Dwell.Scenario.Flaw

/-!
# Why a simulation cannot be built or go on
-/

namespace Dwell

/-- Why an event cannot be applied. -/
inductive EventFault where
  | notSettable (kind : String)
  | noElement (index : Nat)
  deriving DecidableEq, Repr

def EventFault.message : EventFault → String
  | .notSettable kind => s!"{kind} property is not settable"
  | .noElement index => s!"element {index} does not exist"

inductive SimulationFault where
  | scenario (flaw : Flaw)
  | machine (object : String) (fault : Fault)
  | unknownObject (object : String)
  | unknownProperty (object property : String)
  | event (time : Instant) (object property : String) (fault : EventFault)
  deriving DecidableEq, Repr

def SimulationFault.message : SimulationFault → String
  | .scenario flaw => "configuration error: " ++ flaw.text
  | .machine object fault => s!"object '{object}': " ++ fault.message
  | .unknownObject object => s!"object not found: {object}"
  | .unknownProperty object property => s!"property '{property}' not found in object '{object}'"
  | .event time object property fault =>
    s!"event at {time.seconds} for '{object}.{property}' cannot be applied: " ++ fault.message

end Dwell
