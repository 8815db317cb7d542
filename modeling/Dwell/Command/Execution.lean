import Dwell.Command.Arguments
import Dwell.Command.Printing
import Dwell.Scenario.Loading
import Dwell.Simulation.Building

/-!
# Executing the command

What the command prints, and the code it exits with: 0 if all went well, 1 if the scenario could
not be loaded or run, 2 if the arguments are wrong.
-/

namespace Dwell

structure Output where
  exit : UInt32
  text : String := ""

def versionText : String :=
  "rulefsm 0.1.0\n"

def helpText (env : Environment) : String :=
  let path := env.path?.getD ""
  "Run a rule-compiled finite state machine simulation\n\nUsage: rulefsm [OPTIONS]\n\nOptions:\n"
    ++ s!"  -c, --config <CONFIG>  Simulation config file (YAML) [env: RULEFSM_CONFIG={path}]\n"
    ++ "      --stop <STOP>      Override the stop time, in seconds\n"
    ++ "      --json             Print the report as JSON\n"
    ++ "  -h, --help             Print help\n"
    ++ "  -V, --version          Print version\n"

/-- The scenario that is to run. -/
def RunRequest.scenario (r : RunRequest) (files : Files) (env : Environment) :
    Except LoadFault Scenario := do
  let s ← Scenario.load files env r.path?
  return { s with window.stop := r.stop?.getD s.window.stop }

/-- The report of the run that is asked for, if it can be loaded and comes to its end. -/
def RunRequest.report? (r : RunRequest) (files : Files) (env : Environment) : Option Report :=
  match r.scenario files env with
  | .error _ => none
  | .ok scenario => match scenario.build.result with
    | .error _ => none
    | .ok simulation =>
      let run := simulation.run
      match run.ending with
      | .finished => some (simulation.report run)
      | _ => none

/-- The output for arguments, with the files that can be read and the environment. -/
def execute (files : Files) (env : Environment) (arguments : List String) : Output :=
  match Request.ofArguments env arguments with
  | none => { exit := 2 }
  | some .version => ⟨0, versionText⟩
  | some .help => ⟨0, helpText env⟩
  | some (.run r) => match r.report? files env with
    | none => { exit := 1 }
    | some report => ⟨0, if r.json then report.json else report.text⟩

end Dwell
