import Dwell.Double.Layout
import Dwell.Host.Basic

/-!
# Operands

What a test compares: a number, the time spent in the state, the state itself, or an element of
one of the host's numeric properties. Only the last is read from the host, and each time anew.
-/

namespace Dwell

inductive Operand where
  | literal (value : Float)
  | timer
  | state
  | element (property : String) (index : Nat)

/-- What a machine shows to the tests of its rules. -/
structure Frame where
  /-- Seconds since the present state was entered. -/
  elapsed : Float
  /-- The state value that the machine last observed. -/
  state : Float

/-- A read of a source: its name and the element asked for. -/
structure SourceRead where
  property : String
  index : Nat
  deriving DecidableEq, Repr

namespace Operand

/-- The present value; nothing when the host cannot supply it. -/
def value? (host : Host) (frame : Frame) : Operand → Option Float
  | literal value => some value
  | timer => some frame.elapsed
  | state => some frame.state
  | element property index => host.read? property index

/-- The source that evaluating the operand asks. -/
def reads (host : Host) : Operand → List SourceRead
  | element property index => if host.isSource property then [⟨property, index⟩] else []
  | _ => []

def text : Operand → String
  | literal value => Double.text value
  | timer => "$timer"
  | state => "$state"
  | element property 0 => property
  | element property index => s!"{property}[{index}]"

end Operand

end Dwell
