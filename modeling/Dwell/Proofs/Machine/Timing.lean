import Dwell.Proofs.Machine.Calling

/-!
# What the dwell timer measures

The timer that tests read begins when the machine is started and at every tick that fires a
transition (`lastFired`). A state that was written from outside is entered, too, when a tick
observes it, but that does not begin the timer anew. So the timer tells the time since the present
state was entered just when no state was entered from outside later than the last transition was
fired (`elapsed_eq_since_lastFired`).
-/

namespace Dwell

/-- The time of a tick. -/
def Operation.time? : Operation → Option Instant
  | .tick now _ => some now
  | _ => none

namespace Deed

/-- A transition was fired. -/
def fires (d : Deed) : Bool :=
  d.effect.journal.targets ≠ []

/-- Another level was observed than `previous`, the one observed before. -/
def turns (previous : Int) (d : Deed) : Bool :=
  d.observed?.getD previous ≠ previous

/-- The time at which a transition was fired. -/
def firedAt? (d : Deed) : Option Instant :=
  if d.fires then d.operation.time? else none

/-- The time at which a state was entered, by a transition or from outside. -/
def enteredAt? (previous : Int) (d : Deed) : Option Instant :=
  if d.fires || d.turns previous then d.operation.time? else none

/-- The time at which a state was entered from outside, with no transition. -/
def intrudedAt? (previous : Int) (d : Deed) : Option Instant :=
  if d.turns previous && !d.fires then d.operation.time? else none

/-- What is found along a history, in each deed with the level that was observed before it. -/
def along (find : Int → Deed → Option Instant) : Int → List Deed → List Instant
  | _, [] => []
  | level, d :: ds => (find level d).toList ++ along find (d.observed?.getD level) ds

end Deed

/-- The time of the last tick that fired a transition, `start` when none did. -/
def lastFired (start : Instant) (ds : List Deed) : Instant :=
  ((ds.filterMap (·.firedAt?)).getLast?).getD start

/-- The time of the last tick that entered a state, `start` when none did. The machine was started
at a level. -/
def lastEntered (start : Instant) (level : Int) (ds : List Deed) : Instant :=
  ((Deed.along Deed.enteredAt? level ds).getLast?).getD start

/-- The times of the ticks that entered a state from outside. -/
def intrusions (level : Int) (ds : List Deed) : List Instant :=
  Deed.along Deed.intrudedAt? level ds

section Times

variable {start : Instant} {level : Int} {d : Deed} {ds : List Deed} {a b : Instant}

theorem lastFired_cons : lastFired start (d :: ds) = lastFired (d.firedAt?.getD start) ds :=
  getLast?_filterMap_cons ..

theorem lastEntered_cons : lastEntered start level (d :: ds)
    = lastEntered ((d.enteredAt? level).getD start) (d.observed?.getD level) ds :=
  getLast?_toList_append ..

theorem intrusions_cons : intrusions level (d :: ds)
    = (d.intrudedAt? level).toList ++ intrusions (d.observed?.getD level) ds := rfl

/-- Transitions are fired at times of ticks. -/
theorem le_lastFired (h : ∀ t ∈ ds.filterMap (·.operation.time?), a ≤ t) : a ≤ lastFired a ds := by
  rcases hlast : (ds.filterMap (·.firedAt?)).getLast? with _ | t
  · rw [lastFired, hlast]
    rfl
  · rw [lastFired, hlast]
    obtain ⟨d, hd, ht⟩ := List.mem_filterMap.1 (List.mem_of_getLast? hlast)
    unfold Deed.firedAt? at ht
    split at ht
    · exact h t (List.mem_filterMap.2 ⟨d, hd, ht⟩)
    · cases ht

/-- Let the last transition have been fired at `a`, and the last state entered at `b`. After what
follows these times agree just when none of the states entered since is newer than the last
transition. -/
theorem lastFired_eq_lastEntered_iff : ∀ (ds : List Deed) {a b : Instant} (level : Int), a ≤ b →
    (b :: ds.filterMap (·.operation.time?)).Pairwise (· ≤ ·) →
    (lastFired a ds = lastEntered b level ds ↔
      b ≤ lastFired a ds ∧ ∀ t ∈ intrusions level ds, t ≤ lastFired a ds)
  | [], a, b, level, hab, _ => by
    simp only [lastFired, lastEntered, intrusions, Deed.along, List.filterMap_nil,
      List.getLast?_nil, Option.getD_none, List.not_mem_nil, false_implies, implies_true, and_true]
    exact ⟨fun h => h.ge, hab.antisymm⟩
  | d :: ds, a, b, level, hab, hmono => by
    rw [lastFired_cons, lastEntered_cons, intrusions_cons]
    rcases htime : d.operation.time? with _ | t
    · -- Nothing but a tick fires or enters.
      have hrest := lastFired_eq_lastEntered_iff ds (d.observed?.getD level) hab
        (by simpa [htime] using hmono)
      simpa [Deed.firedAt?, Deed.enteredAt?, Deed.intrudedAt?, htime] using hrest
    have htimes : (d :: ds).filterMap (·.operation.time?)
        = t :: ds.filterMap (·.operation.time?) := List.filterMap_cons_some htime
    rw [htimes, List.pairwise_cons, List.forall_mem_cons] at hmono
    obtain ⟨⟨hbt, -⟩, hmono⟩ := hmono
    have hle := (List.pairwise_cons.1 hmono).1
    cases hfires : d.fires with
    | true =>
      have hrest := lastFired_eq_lastEntered_iff ds (d.observed?.getD level) (le_refl t) hmono
      have hlast := le_lastFired hle
      simp only [Deed.firedAt?, Deed.enteredAt?, Deed.intrudedAt?, hfires, htime, if_true,
        Bool.true_or, Bool.not_true, Bool.and_false, Option.getD_some]
      rw [hrest]
      simp [hlast, hbt.trans hlast]
    | false =>
      cases hturns : d.turns level with
      | true =>
        have hrest := lastFired_eq_lastEntered_iff ds (d.observed?.getD level) (hab.trans hbt) hmono
        simp only [Deed.firedAt?, Deed.enteredAt?, Deed.intrudedAt?, hfires, hturns, htime]
        simp only [Bool.or_true, Bool.not_false, Bool.and_true, if_true, Bool.false_eq_true,
          if_false, Option.getD_some, Option.getD_none, Option.toList_some, List.singleton_append,
          List.forall_mem_cons]
        rw [hrest]
        exact ⟨fun h => ⟨hbt.trans h.1, h⟩, fun h => h.2⟩
      | false =>
        have hrest := lastFired_eq_lastEntered_iff ds (d.observed?.getD level) hab
          (List.pairwise_cons.2 ⟨fun u hu => hbt.trans (hle u hu), (List.pairwise_cons.1 hmono).2⟩)
        simpa [Deed.firedAt?, Deed.enteredAt?, Deed.intrudedAt?, hfires, hturns] using hrest

end Times

namespace Machine

open Journal

variable {m : Machine} {host : Host} {p : Program}

/-- A tick that fires a transition begins the timer anew, and nothing else does while the machine
runs. -/
theorem entryTime_perform (m : Machine) (host : Host) {op : Operation} (hop : op.isRunning) :
    (m.perform host op).machine.entryTime
      = (Deed.firedAt? ⟨op, m, host, m.perform host op⟩).getD m.entryTime := by
  cases op with
  | tick now horizon =>
    change (m.tickUntil host now horizon).machine.entryTime = _
    have hfired : Deed.firedAt? ⟨.tick now horizon, m, host, m.perform host (.tick now horizon)⟩
        = (m.tickUntil host now horizon).journal.targets.getLast?.map fun _ => now := by
      rw [Deed.firedAt?, Deed.fires]
      change (if decide ((m.tickUntil host now horizon).journal.targets ≠ []) = true then some now
        else none) = _
      cases (m.tickUntil host now horizon).journal.targets <;> simp [List.getLast?_cons]
    rw [hfired]
    rcases hp : m.program? with _ | p
    · rw [tickUntil_of_unbound host now horizon hp]
      rfl
    rcases hh : m.isHeld now horizon with _ | _
    · obtain ⟨x, hx⟩ := m.tickUntil_machine host now horizon hp hh
      rw [hx]
      cases (m.tickUntil host now horizon).journal.targets.getLast? <;> rfl
    · rw [tickUntil_of_held host now horizon hp hh]
      rfl
  | outside write => rfl
  | bind | addRule | addHold | setHook | configure | init | reset | clear | setValue | setOptions =>
    exact hop.elim

/-- At every point of a history, the timer began at the last transition before. -/
theorem entryTime_history : ∀ (ops : List Operation) (m : Machine) (host : Host),
    (∀ op ∈ ops, op.isRunning) → ∀ {before : List Deed} {d : Deed} {after : List Deed},
      m.history host ops = before ++ d :: after →
      d.machine.entryTime = lastFired m.entryTime before
  | [], _, _, _, before, _, _, hd => by simp [history] at hd
  | op :: ops, m, host, hops, before, d, after, hd => by
    rw [List.forall_mem_cons] at hops
    rw [history] at hd
    cases before with
    | nil =>
      obtain ⟨rfl, -⟩ := List.cons.inj hd
      rfl
    | cons d' before =>
      obtain ⟨rfl, htail⟩ := List.cons.inj hd
      rw [lastFired_cons, entryTime_history ops _ _ hops.2 htail, entryTime_perform m host hops.1]

theorem elapsed_tickUntil (hp : m.program? = some p) (now horizon : Instant) :
    (m.tickUntil host now horizon).machine.elapsed = now.secondsSince m.entryTime := by
  rcases hh : m.isHeld now horizon with _ | _
  · obtain ⟨x, hx⟩ := m.tickUntil_machine host now horizon hp hh
    rw [hx]
    cases (m.tickUntil host now horizon).journal.targets.getLast? <;> rfl
  · rw [tickUntil_of_held host now horizon hp hh]

/-- Let a machine be started, then ticked and its host written from outside. In every tick the time
spent in the state, which its rules test if it is not held, is counted from the last transition
before. If the clock was never set back, this is the time since the state was entered just when no
state was entered from outside after that transition. -/
theorem elapsed_eq_since_lastFired (hp : m.program? = some p) (start : Instant)
    (ops : List Operation) (hops : ∀ op ∈ ops, op.isRunning) {before : List Deed} {d : Deed}
    {after : List Deed} (hd : (m.init host start).history host ops = before ++ d :: after)
    {now horizon : Instant} (hop : d.operation = .tick now horizon) :
    let level := host.level p.variableName
    let fired := lastFired start before
    d.effect.machine.elapsed = now.secondsSince fired ∧
    (d.machine.isHeld now horizon = false → ∀ s,
      p.stateOf? (d.host.level p.variableName) = some s →
      Examined s m.options.scan ⟨now.secondsSince fired, d.machine.value⟩ d.host 0
        (p.rules.candidates s) d.effect.journal.examinations) ∧
    ((start :: before.filterMap (·.operation.time?)).Pairwise (· ≤ ·) →
      (fired = lastEntered start level before ↔ ∀ t ∈ intrusions level before, t ≤ fired)) := by
  intro level fired
  obtain ⟨hruns, he⟩ := (runs_init hp start).history ops hops hd
  have hentry : d.machine.entryTime = fired := entryTime_history ops _ host hops hd
  rw [hop] at he
  rw [he]
  refine ⟨?_, fun hh s hs => ?_, fun hmono => ?_⟩
  · exact (elapsed_tickUntil hruns.program? now horizon).trans (by rw [hentry])
  · rw [← hentry, ← hruns.options]
    exact d.machine.examined_tickUntil d.host now horizon hruns.program? hh hs
  · rw [lastFired_eq_lastEntered_iff before level (le_refl start) hmono, and_iff_right]
    exact le_lastFired (List.pairwise_cons.1 hmono).1

/-- A switch that goes on after two seconds, and off after six, as far as its timer tells. -/
def timedSwitch : Program where
  variableName := "switch"
  keywords := [⟨"OFF", 0⟩, ⟨"ON", 1⟩]
  rules := ⟨[[⟨1, [⟨.timer, .ge, .literal 2.0⟩]⟩], [⟨0, [⟨.timer, .ge, .literal 6.0⟩]⟩]]⟩
  holds := [0.0, 0.0]
  hooks := [none, none]

theorem reachable_timedSwitch : Reachable { program? := some timedSwitch } switchHost :=
  ⟨{}, switchHost, [.bind "switch", .addRule "OFF->ON=$timer>=2", .addRule "ON->OFF=$timer>=6"],
    rfl⟩

/-- What the timed switch finds and leaves when it is started at zero. -/
def timedHistory (ops : List Operation) : List Deed :=
  (init { program? := some timedSwitch } switchHost (.clamp 0)).history switchHost ops

/-- Three seconds after the switch went on, its timer tells so. -/
theorem elapsed_eq_since_lastFired_switch : ∃ before d,
    timedHistory [.tick (.clamp 2) .never, .tick (.clamp 5) .never] = before ++ [d] ∧
      d.effect.machine.elapsed = (Instant.clamp 5).secondsSince (lastFired (.clamp 0) before) ∧
      lastFired (.clamp 0) before = .clamp 2 ∧
      lastFired (.clamp 0) before = lastEntered (.clamp 0) 0 before := by
  refine ⟨[_], _, rfl, ?_⟩
  have hp : ({ program? := some timedSwitch } : Machine).program? = some timedSwitch := rfl
  obtain ⟨helapsed, -, hagree⟩ := elapsed_eq_since_lastFired hp (.clamp 0)
    [.tick (.clamp 2) .never, .tick (.clamp 5) .never] (by simp [Operation.isRunning])
    (show timedHistory _ = [_] ++ _ :: [] from rfl) rfl
  exact ⟨helapsed, by decide +kernel, (hagree (by decide +kernel)).2 (by decide +kernel)⟩

/-- The switch is written on, and a tick observes that after five seconds. Two seconds later the
timer still counts from the start, and so the switch is turned off. -/
theorem elapsed_written_switch : Reachable { program? := some timedSwitch } switchHost ∧
    ∃ before d, timedHistory [.tick (.clamp 1) .never, switchTo 1, .tick (.clamp 5) .never,
      .tick (.clamp 7) .never] = before ++ [d] ∧
    d.machine.isHeld (.clamp 7) .never = false ∧
    lastEntered (.clamp 0) 0 before = .clamp 5 ∧ lastFired (.clamp 0) before = .clamp 0 ∧
    d.effect.machine.elapsed = 7.0 ∧ d.effect.journal.transitions = [(1, 0)] ∧
    (timedSwitch.rules.candidates 1).map (·.judge d.host ⟨2.0, d.machine.value⟩)
      ≠ [.satisfied] := by
  refine ⟨reachable_timedSwitch, [_, _, _], _, rfl, ?_⟩
  decide +kernel

end Machine

end Dwell
