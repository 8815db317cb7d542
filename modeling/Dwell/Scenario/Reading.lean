import Dwell.Scenario.Basic
import Dwell.Yaml.Document
import Dwell.Yaml.Reading

/-!
# Reading scenarios

How a YAML document is read as a scenario. Every section may be left out, and so may the fields
that have a default; fields that are not known are ignored. What the type of a property decides is
read by what it denotes (`Node.tagged`), so texts and keywords there must be texts.
-/

namespace Dwell

open Yaml (Node)

/-- A reader of a kind of value. -/
abbrev Reader (α : Type) := Node → Except Yaml.Fault α

def Instant.ofNode : Reader Instant := fun n => do
  return .clamp (← n.int)

def Window.ofNode : Reader Window := fun n => do
  let fs ← n.fields ["start", "stop", "max_step"]
  let default : Window := {}
  return {
    start := ← fs.read? "start" default.start Instant.ofNode
    stop := ← fs.read? "stop" default.stop Instant.ofNode
    maxStep := ← fs.read? "max_step" default.maxStep Node.int }

def Scan.ofNode : Reader Scan := fun n => do
  match ← n.variant with
  | "first_match" => return .firstMatch
  | "exhaustive" => return .exhaustive
  | name => throw (.unknownVariant name)

def Options.ofNode : Reader Options := fun n => do
  let fs ← n.fields ["scan", "granularity"]
  let default : Options := {}
  return {
    scan := ← fs.read? "scan" default.scan Scan.ofNode
    granularity := ← fs.read? "granularity" default.granularity Node.int }

/-- A keyword table; of the keywords with one name, the last counts. -/
def readKeywords : Reader KeywordTable := fun n => do
  let keywords ← (← n.settledEntries).mapM fun e => do
    return Keyword.mk (← e.1.settledText) (← e.2.settledInt)
  return tabulate Keyword.name keywords

/-- The collections that may still nest inside a property, four being open around it. -/
def Declaration.room : Nat :=
  Yaml.greatestDepth - 4

def Declaration.ofNode : Reader Declaration := fun n => do
  let (type, fields) ← n.tagged "type" Declaration.room
  match type with
  | "enumeration" =>
    let fs ← fields ["keywords", "value"]
    return .enumeration (← fs.read "keywords" readKeywords) (← fs.read? "value" 0 Node.settledInt)
  | "double" =>
    let fs ← fields ["value"]
    return .number (← fs.read? "value" 0.0 Node.settledFloat)
  | "double_array" =>
    let fs ← fields ["values"]
    return .numbers (← fs.read "values" fun n => do (← n.settledItems).mapM Node.settledFloat)
  | "text" =>
    let fs ← fields ["value"]
    return .text (← fs.read? "value" "" Node.settledText)
  | _ => throw (.unknownVariant type)

/-- The properties of a host; of those with one name, the last counts. -/
def readProperties : Reader (List (String × Declaration)) := fun n => do
  let properties ← (← n.entries).mapM fun e => do
    return (← e.1.text, ← Declaration.ofNode e.2)
  return tabulate Prod.fst properties

def HostSpec.ofNode : Reader HostSpec := fun n => do
  let fs ← n.fields ["name", "properties", "machines"]
  return {
    name := ← fs.read "name" Node.text
    properties := ← fs.read? "properties" [] readProperties
    machines := ← fs.read? "machines" [] fun n => do (← n.items).mapM Node.text }

def Event.ofNode : Reader Event := fun n => do
  let fs ← n.fields ["at", "object", "property", "index", "value"]
  return {
    time := ← fs.read "at" Instant.ofNode
    host := ← fs.read "object" Node.text
    property := ← fs.read "property" Node.text
    index := ← fs.read? "index" 0 Node.index
    value := ← fs.read "value" Node.float }

def Scenario.ofNode : Reader Scenario := fun n => do
  let fs ← n.fields ["clock", "engine", "objects", "events"]
  return {
    window := ← fs.read? "clock" {} Window.ofNode
    options := ← fs.read? "engine" {} Options.ofNode
    hosts := ← fs.read? "objects" [] fun n => do (← n.items).mapM HostSpec.ofNode
    events := ← fs.read? "events" [] fun n => do (← n.items).mapM Event.ofNode }

/-- The scenario that a text describes. A text without a document describes the default one. -/
def Scenario.ofText (text : String) : Except Yaml.Fault Scenario := do
  match ← Yaml.Document.ofText text with
  | some n => Scenario.ofNode n
  | none => return {}

end Dwell
