import Dwell.Scenario.Reading
import Dwell.Scenario.Settings

/-!
# Loading scenarios

A scenario comes from a file, if one is named, and from the environment, which comes later and
wins.
-/

namespace Dwell

/-- The texts of the files that can be read, by path. -/
abbrev Files := String → Option String

inductive LoadFault where
  | unreadable (path : String)
  | malformed (fault : Yaml.Fault)
  deriving DecidableEq, Repr

/-- The scenario in a file. -/
def Scenario.ofFile (files : Files) (path : String) : Except LoadFault Scenario :=
  match files path with
  | none => .error (.unreadable path)
  | some text => (Scenario.ofText text).mapError .malformed

/-- The scenario in the file at `path?`, or else in the file that the environment names, or else
the default one, with the settings of the environment. -/
def Scenario.load (files : Files) (env : Environment) (path? : Option String) :
    Except LoadFault Scenario := do
  let s ← match path? <|> env.path? with
    | some path => Scenario.ofFile files path
    | none => pure {}
  return s.override env

end Dwell
