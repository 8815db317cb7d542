import Dwell.Simulation.Report
import Dwell.Text.JsonValue

/-!
# Printed reports

A report is printed as lines, one for every state entry and one for every machine's final state,
or as JSON.
-/

namespace Dwell

open Text (JsonValue)

/-- A text filled up with spaces on the left. -/
def padLeft (width : Nat) (s : String) : String :=
  String.ofList (List.replicate (width - s.length) ' ') ++ s

def StateEntry.line (e : StateEntry) : String :=
  padLeft 10 (toString e.time.seconds) ++ s!"  {e.object}.{e.property} -> {e.state}\n"

def Summary.line (s : Summary) : String :=
  let property := s.property?.getD "-"
  let state := s.state?.getD "?"
  s!"final  {s.object}.{property} = {state}\n"

/-- A report as lines. -/
def Report.text (r : Report) : String :=
  String.join (r.transitions.map (·.line) ++ r.machines.map (·.line))

def StateEntry.json (e : StateEntry) : JsonValue :=
  .object [("time", .ofInt e.time.seconds), ("object", .text e.object),
    ("property", .text e.property), ("state", .text e.state)]

def Summary.json (s : Summary) : JsonValue :=
  .object [("object", .text s.object), ("property", .ofText? s.property?),
    ("state", .ofText? s.state?), ("value", .atom (Double.Layout.reported.write s.value))]

/-- A report as JSON. -/
def Report.json (r : Report) : String :=
  JsonValue.write 0 (.object [("start", .ofInt r.start.seconds), ("stop", .ofInt r.stop.seconds),
    ("steps", .ofInt r.steps), ("transitions", .list (r.transitions.map (·.json))),
    ("machines", .list (r.machines.map (·.json)))]) ++ "\n"

end Dwell
