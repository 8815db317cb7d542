/-!
# Units of duration

A hold may be given in any unit that its host can convert to seconds. `Units.time` is the
conversion hosts have unless they bring their own.
-/

namespace Dwell

/-- Conversion of a value between named units; nothing when a unit is not known. -/
structure Units where
  convert : (value : Float) → (source target : String) → Option Float

/-- Conversion through a common scale: the size of each unit in terms of one of them. -/
def Units.ofScales (scale : String → Option Float) : Units where
  convert value source target := do
    let s ← scale source
    let t ← scale target
    return value * s / t

/-- The seconds in a unit of time. -/
def secondsPer (unit : String) : Option Float :=
  if unit ∈ ["ms", "msec", "millisecond", "milliseconds"] then some 0.001
  else if unit ∈ ["s", "sec", "secs", "second", "seconds"] then some 1.0
  else if unit ∈ ["m", "min", "mins", "minute", "minutes"] then some 60.0
  else if unit ∈ ["h", "hr", "hrs", "hour", "hours"] then some 3600.0
  else if unit ∈ ["d", "day", "days"] then some 86400.0
  else if unit ∈ ["w", "wk", "week", "weeks"] then some 604800.0
  else none

def Units.time : Units :=
  .ofScales secondsPer

end Dwell
