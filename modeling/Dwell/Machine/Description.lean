import Dwell.Machine.Basic
import Dwell.Text.Quoted

/-!
# Descriptions of machines

One line that shows a machine in diagnostics: its host and state variable, the size of its
program, and where it stands.
-/

namespace Dwell

def Instant.describe (t : Instant) : String :=
  s!"Timestamp({t.seconds})"

def Machine.describe (m : Machine) (host : Host) : String :=
  let property := match m.boundTo? with
    | some name => "Some(" ++ Text.quote name ++ ")"
    | none => "None"
  "Machine \x7b object: " ++ Text.quote host.name ++ ", property: " ++ property
    ++ s!", n_states: {m.states}, rules: {m.totalRules}, value: "
    ++ Double.Layout.described.write m.value ++ ", entry_time: " ++ m.entryTime.describe
    ++ ", hold_until: " ++ m.holdUntil.describe ++ " \x7d"

end Dwell
