import Dwell.Double.Layout
import Dwell.Scenario.Basic
import Dwell.Yaml.Block

/-!
# Writing scenarios

A scenario as a YAML document that gives every field, defaults included. Reading the document
gives the scenario back.
-/

namespace Dwell

open Yaml (Node)

/-- A record's fields by name, in order. -/
def recordNode (fields : List (String × Node)) : Node :=
  .map (fields.map fun f => (.ofText f.1, f.2))

def intNode (n : Int) : Node :=
  .scalar (toString n) .plain

def doubleNode (x : Float) : Node :=
  .scalar (Double.Layout.stored.write x) .plain

def Instant.toNode (t : Instant) : Node :=
  intNode t.seconds

def Window.toNode (w : Window) : Node :=
  recordNode [("start", w.start.toNode), ("stop", w.stop.toNode), ("max_step", intNode w.maxStep)]

def Scan.name : Scan → String
  | .firstMatch => "first_match"
  | .exhaustive => "exhaustive"

def Options.toNode (o : Options) : Node :=
  recordNode [("scan", .ofText o.scan.name), ("granularity", intNode o.granularity)]

def keywordsNode (table : KeywordTable) : Node :=
  recordNode (table.map fun k => (k.name, intNode k.value))

def Declaration.toNode : Declaration → Node
  | .enumeration keywords value =>
    recordNode [("type", .ofText "enumeration"), ("keywords", keywordsNode keywords),
      ("value", intNode value)]
  | .number value => recordNode [("type", .ofText "double"), ("value", doubleNode value)]
  | .numbers values =>
    recordNode [("type", .ofText "double_array"), ("values", .seq (values.map doubleNode))]
  | .text value => recordNode [("type", .ofText "text"), ("value", .ofText value)]

def HostSpec.toNode (h : HostSpec) : Node :=
  recordNode [("name", .ofText h.name),
    ("properties", recordNode (h.properties.map fun p => (p.1, p.2.toNode))),
    ("machines", .seq (h.machines.map .ofText))]

def Event.toNode (e : Event) : Node :=
  recordNode [("at", e.time.toNode), ("object", .ofText e.host), ("property", .ofText e.property),
    ("index", intNode e.index), ("value", doubleNode e.value)]

def Scenario.toNode (s : Scenario) : Node :=
  recordNode [("clock", s.window.toNode), ("engine", s.options.toNode),
    ("objects", .seq (s.hosts.map (·.toNode))), ("events", .seq (s.events.map (·.toNode)))]

/-- The text under which a scenario is saved. -/
def Scenario.text (s : Scenario) : String :=
  s.toNode.block

end Dwell
