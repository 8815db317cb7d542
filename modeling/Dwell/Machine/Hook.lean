import Dwell.Host.Basic
import Dwell.Instant

/-!
# Hooks

A hook is what a device attaches to a state: it is called when the state is entered, on every tick
that the machine stays in it, and just before a transition leaves it. A hook sees the machine and
may write the host's readings.
-/

namespace Dwell

inductive Phase where
  | entry
  | exit
  | during
  deriving DecidableEq, Repr

/-- What a machine shows to a hook. -/
structure View where
  boundTo? : Option String
  value : Float
  stateName? : Option String
  entryTime : Instant
  holdUntil : Instant
  elapsed : Float

structure Hook where
  /-- The name under which calls are reported, if they are. -/
  label : Option String := none
  react : Phase → View → Readings → Readings := fun _ _ r => r

/-- A write that a hook makes whenever it is called in a phase. -/
structure HookWrite where
  phase : Phase
  property : String
  index : Nat
  value : Float

/-- A hook that makes fixed writes on a host, in order. A write that the host cannot take is left
out. -/
def Hook.writing (host : Host) (label : String) (writes : List HookWrite) : Hook where
  label := some label
  react phase _ readings :=
    let due := writes.filter (·.phase = phase)
    (due.foldl (fun (h : Host) w => (h.write? w.property w.index w.value).getD h)
      { host with readings }).readings

/-- A hook that changes nothing. -/
def Hook.isQuiet (k : Hook) : Prop :=
  ∀ p v r, k.react p v r = r

end Dwell
