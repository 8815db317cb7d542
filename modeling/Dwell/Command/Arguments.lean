import Dwell.Scenario.Settings

/-!
# Arguments of the command

What the arguments ask for. They are read from left to right, so a request for the version or for
help wins over what is wrong behind it, and loses to what is wrong before it.
-/

namespace Dwell

structure RunRequest where
  /-- The file of the scenario, if one is named. -/
  path? : Option String := none
  /-- The end of the window, in place of the scenario's. -/
  stop? : Option Instant := none
  /-- Whether the report is printed as JSON. -/
  json : Bool := false

inductive Request where
  | run (r : RunRequest)
  | version
  | help

/-- One argument. An option that takes a value may hold it. -/
inductive Argument where
  | path (value? : Option String)
  | stop (value? : Option String)
  | json
  | version
  | help
  /-- The mark behind which there are no options. -/
  | endOfOptions
  | unknown
  deriving DecidableEq, Repr

namespace Argument

/-- A long option's name, and its value behind a `=`. -/
def splitValue (s : List Char) : String × Option String :=
  let name := s.takeWhile (· != '=')
  (.ofList name, match s.drop name.length with
    | [] => none
    | _ :: value => some (.ofList value))

def ofLong (s : List Char) : Argument :=
  match splitValue s with
  | ("config", value?) => .path value?
  | ("stop", value?) => .stop value?
  | ("json", none) => .json
  | ("version", none) => .version
  | ("help", none) => .help
  | _ => .unknown

def ofShort : List Char → Argument
  | ['c'] => .path none
  | 'c' :: '=' :: value => .path (some (.ofList value))
  | 'c' :: value => .path (some (.ofList value))
  | 'V' :: _ => .version
  | 'h' :: _ => .help
  | _ => .unknown

def ofText (s : String) : Argument :=
  match s.toList with
  | ['-', '-'] => .endOfOptions
  | '-' :: '-' :: s => ofLong s
  | '-' :: s => ofShort s
  | _ => .unknown

end Argument

/-- Whether a text may be the value of the option before it. -/
def isOptionValue (s : String) : Bool :=
  s == "-" || s.toList.head? != some '-'

namespace RunRequest

/-- Names the file; it can be named once only. -/
def withPath (r : RunRequest) (path : String) : Option RunRequest :=
  if r.path?.isSome ∨ path = "" then none else some { r with path? := some path }

/-- Gives the end of the window; it can be given once only. -/
def withStop (r : RunRequest) (value : String) : Option RunRequest :=
  if r.stop?.isSome then none
  else (Text.integer? value.toList).map fun n => { r with stop? := some (.clamp n) }

def withJson (r : RunRequest) : Option RunRequest :=
  if r.json then none else some { r with json := true }

end RunRequest

namespace Request

/-- What the arguments behind those that gave `r` ask for; nothing if one of them is wrong. -/
def readFrom (r : RunRequest) : List String → Option Request
  | [] => some (.run r)
  | s :: rest =>
    match Argument.ofText s with
    | .path (some path) => (r.withPath path).bind (readFrom · rest)
    | .stop (some value) => (r.withStop value).bind (readFrom · rest)
    | .path none => match rest with
      | path :: rest =>
        if isOptionValue path then (r.withPath path).bind (readFrom · rest) else none
      | [] => none
    | .stop none => match rest with
      | value :: rest =>
        if isOptionValue value then (r.withStop value).bind (readFrom · rest) else none
      | [] => none
    | .json => r.withJson.bind (readFrom · rest)
    | .version => some .version
    | .help => some .help
    | .endOfOptions => if rest = [] then some (.run r) else none
    | .unknown => none

/-- What arguments ask for. A file that only the environment names must have a name. -/
def ofArguments (env : Environment) (arguments : List String) : Option Request :=
  match readFrom {} arguments with
  | some (.run r) => if r.path? = none ∧ env.path? = some "" then none else some (.run r)
  | request? => request?

end Request

end Dwell
