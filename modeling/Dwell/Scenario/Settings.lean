import Dwell.Scenario.Basic
import Dwell.Text.Digits

/-!
# Settings from the environment

Environment variables override single settings of a scenario. A number that cannot be read leaves
its setting as it was; the scan policy is exhaustive only if its variable says so, in any case of
letters.
-/

namespace Dwell

/-- The environment variables that are set. -/
abbrev Environment := List (String × String)

namespace Environment

/-- The integer that a variable holds, if it holds one. -/
def integer? (env : Environment) (name : String) : Option Int := do
  Text.integer? (← env.lookup name).toList

def start? (env : Environment) : Option Instant :=
  (env.integer? "RULEFSM_START").map .clamp

def stop? (env : Environment) : Option Instant :=
  (env.integer? "RULEFSM_STOP").map .clamp

def maxStep? (env : Environment) : Option Int :=
  env.integer? "RULEFSM_STEP"

def granularity? (env : Environment) : Option Int :=
  env.integer? "RULEFSM_GRANULARITY"

/-- The scan policy that a word stands for; words without a meaning stand for the first match. -/
def scanOfWord (word : String) : Scan :=
  if word.toList.map Char.toLower = "exhaustive".toList then .exhaustive else .firstMatch

def scan? (env : Environment) : Option Scan :=
  (env.lookup "RULEFSM_SCAN").map scanOfWord

/-- The file that is loaded when none is named. -/
def path? (env : Environment) : Option String :=
  env.lookup "RULEFSM_CONFIG"

end Environment

/-- The scenario with the settings that the environment gives. -/
def Scenario.override (s : Scenario) (env : Environment) : Scenario :=
  { s with
    window :=
      { start := env.start?.getD s.window.start
        stop := env.stop?.getD s.window.stop
        maxStep := env.maxStep?.getD s.window.maxStep }
    options :=
      { scan := env.scan?.getD s.options.scan
        granularity := env.granularity?.getD s.options.granularity } }

end Dwell
