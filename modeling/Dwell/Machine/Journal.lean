import Dwell.Machine.Hook
import Dwell.Notice
import Dwell.Rule.Graph

/-!
# Journals

What can be observed of an operation on a machine, in the order it happened: the candidates it
examined, the sources it read, the hooks it called, the transitions it fired and the notices it
gave.
-/

namespace Dwell

structure HookCall where
  state : Nat
  phase : Phase
  label : Option String
  view : View

inductive Entry where
  | examined (origin position : Nat) (judgement : Judgement)
  | read (source : SourceRead)
  | called (call : HookCall)
  | fired (origin target : Nat)
  | noted (notice : Notice)

abbrev Journal := List Entry

namespace Journal

def reads (j : Journal) : List SourceRead :=
  j.filterMap fun | .read r => some r | _ => none

def calls (j : Journal) : List HookCall :=
  j.filterMap fun | .called c => some c | _ => none

def notices (j : Journal) : List Notice :=
  j.filterMap fun | .noted n => some n | _ => none

end Journal

end Dwell
