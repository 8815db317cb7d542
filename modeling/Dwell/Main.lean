import Dwell.Command.Execution

/-!
# The command

Reads the environment and the scenario's file, and prints what `Dwell.execute` answers.
-/

namespace Dwell

/-- The variables that the command looks at, as they are set. -/
def readEnvironment : IO Environment := do
  let names := ["RULEFSM_CONFIG", "RULEFSM_START", "RULEFSM_STOP", "RULEFSM_STEP", "RULEFSM_SCAN",
    "RULEFSM_GRANULARITY"]
  names.filterMapM fun name => do
    return (← IO.getEnv name).map (name, ·)

/-- The text of a file, if it can be read. -/
def readText? (path : String) : IO (Option String) := do
  try
    return some (← IO.FS.readFile path)
  catch _ =>
    return none

/-- The path of the file that a request needs. -/
def Request.path? (env : Environment) : Request → Option String
  | .run r => r.path? <|> env.path?
  | _ => none

end Dwell

open Dwell in
def main (arguments : List String) : IO UInt32 := do
  let env ← readEnvironment
  let path? := (Request.ofArguments env arguments).bind (·.path? env)
  let text? ← match path? with
    | some path => readText? path
    | none => pure none
  let output := execute (fun path => if path? = some path then text? else none) env arguments
  IO.print output.text
  return output.exit
