import Dwell.Machine.Basic

/-!
# Ticks

A tick first refreshes the time spent in the state. While a dwell is owed it ends there and
answers the dwell's end. Otherwise it examines the candidates of the present state and fires the
satisfied ones, calls the hook of the state it then observes, and answers when the machine must be
ticked again.
-/

namespace Dwell

namespace Machine

/-- What tests see of the machine. -/
def frame (m : Machine) : Frame :=
  ⟨m.elapsed, m.value⟩

/-- Fires a transition: the hook of the origin is called, the dwell in the target begins, and the
target is written to the state variable. -/
def fire (m : Machine) (host : Host) (p : Program) (origin target : Nat) (now : Instant) :
    Machine × Host × Journal :=
  let (host, calls) := m.callHook host origin .exit
  let holdUntil := now.after ((p.holds[target]?).getD 0.0)
  ({ m with entryTime := now, holdUntil }, host.command p.variableName target,
    calls ++ [.fired origin target,
      .noted (.transition host.name (p.stateText origin) (p.stateText target) now holdUntil)])

/-- The journal of examining a candidate: what it read, how it was judged, and a notice when an
operand could not be read. -/
def examination (host : Host) (p : Program) (frame : Frame) (origin position : Nat)
    (c : Candidate) : Journal :=
  let judgement := c.judge host frame
  let notice : Journal :=
    match judgement with
    | .stopped i (.unread side) => match c.tests[i]? with
      | some t =>
        [.noted (.unreadable host.name t.text (t.side side).text (p.stateText origin)
          (p.stateText c.target))]
      | none => []
    | _ => []
  (c.reads host frame).map .read ++ [.examined origin position judgement] ++ notice

/-- Examines candidates of a state in order, the first of them at `position`, and fires those that
are satisfied, or only the first when the options say so. -/
def scan (p : Program) (origin : Nat) (now : Instant) (position : Nat) :
    List Candidate → Machine → Host → Machine × Host × Journal
  | [], m, host => (m, host, [])
  | c :: cs, m, host =>
    let seen := examination host p m.frame origin position c
    if c.judge host m.frame = .satisfied then
      let (m, host, fired) := m.fire host p origin c.target now
      match m.options.scan with
      | .firstMatch => (m, host, seen ++ fired)
      | .exhaustive =>
        let (m, host, rest) := scan p origin now (position + 1) cs m host
        (m, host, seen ++ fired ++ rest)
    else
      let (m, host, rest) := scan p origin now (position + 1) cs m host
      (m, host, seen ++ rest)

/-- Applies the rules of the state that the state variable has. -/
def applyRules (m : Machine) (host : Host) (p : Program) (now : Instant) :
    Machine × Host × Journal :=
  let level := host.level p.variableName
  match p.stateOf? level with
  | some s => scan p s now 0 (p.rules.candidates s) m host
  | none => (m, host, [.noted (.stateOutside host.name level p.states)])

/-- Takes over the value of the state variable, and calls the hook of the state: its entry hook
when the value is another than before, its hook for staying when it is the same. -/
def observe (m : Machine) (host : Host) (p : Program) : Machine × Host × Journal :=
  let observed := Double.ofInt (host.level p.variableName)
  let phase := if observed == m.value then Phase.during else Phase.entry
  let m := if observed == m.value then m else { m with value := observed }
  match m.state? with
  | some s =>
    let (host, calls) := m.callHook host s phase
    (m, host, calls)
  | none => (m, host, [])

/-- Whether the dwell that is owed has not ended at `now`, and ends before the horizon. -/
def isHeld (m : Machine) (now horizon : Instant) : Bool :=
  now < m.holdUntil && m.holdUntil < horizon

/-- Ticks a machine at `now`, where its caller goes on to `horizon`; the answer is the next time
at which it must be ticked. A machine that is not bound does nothing. -/
def tickUntil (m : Machine) (host : Host) (now horizon : Instant) : Effect Instant :=
  match m.program? with
  | none => ⟨.never, m, host, []⟩
  | some p =>
    let m := { m with elapsed := now.secondsSince m.entryTime }
    if m.isHeld now horizon then ⟨m.holdUntil, m, host, []⟩
    else
      let m := { m with holdUntil := .never }
      let (m, host, applied) := m.applyRules host p now
      let (m, host, observed) := m.observe host p
      ⟨m.holdUntil.soften m.options.granularity, m, host, applied ++ observed⟩

def tick (m : Machine) (host : Host) (now : Instant) : Effect Instant :=
  m.tickUntil host now .never

end Machine

end Dwell
