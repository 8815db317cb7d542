import Dwell.Proofs.Double.Large
import Dwell.Proofs.Machine.Entering
import Dwell.Proofs.Machine.Replay

/-!
# Which hooks a tick calls

A tick that is not held calls the exit hook of its origin once for each transition that it fires,
and then one hook of the state that it observes: the entry hook when it observes another level than
the tick before it did, the hook for staying otherwise (`keys_tickUntil`). The machine keeps what it
observed as a double only, which tells states apart whatever the levels in between were (`Tells`).
-/

namespace Dwell

/-- The state whose hook was called, and the phase. -/
def HookCall.key (c : HookCall) : Nat × Phase :=
  (c.state, c.phase)

/-- A transition that was fired, by its origin and target. -/
def Entry.transition? : Entry → Option (Nat × Nat)
  | .fired origin target => some (origin, target)
  | _ => none

namespace Journal

def keys (j : Journal) : List (Nat × Phase) :=
  j.calls.map (·.key)

def transitions (j : Journal) : List (Nat × Nat) :=
  j.filterMap (·.transition?)

variable (j k : Journal)

theorem keys_append : keys (j ++ k) = j.keys ++ k.keys := by
  simp [keys, calls]

theorem transitions_append : transitions (j ++ k) = j.transitions ++ k.transitions :=
  List.filterMap_append

theorem mem_transitions {j : Journal} {t : Nat × Nat} :
    t ∈ j.transitions ↔ Entry.fired t.1 t.2 ∈ j := by
  simp only [transitions, List.mem_filterMap]
  constructor
  · rintro ⟨entry, hentry, ht⟩
    cases entry with
    | fired origin target =>
      cases ht
      exact hentry
    | examined | read | called | noted => cases ht
  · exact fun h => ⟨_, h, rfl⟩

end Journal

namespace Program

/-- What transitions call: the exit hook of each origin that has a hook. -/
def exits (p : Program) (transitions : List (Nat × Nat)) : List (Nat × Phase) :=
  (transitions.filter fun t => (p.hook? t.1).isSome).map fun t => (t.1, .exit)

/-- What observing a level calls, where the level observed before is another or the same: the hook
of the state, if the level is a state and that has a hook. -/
def arrival (p : Program) (previous level : Int) : List (Nat × Phase) :=
  match p.stateOf? level with
  | some s =>
    if (p.hook? s).isSome then [(s, if level = previous then .during else .entry)] else []
  | none => []

theorem exits_append (p : Program) (ts us : List (Nat × Nat)) :
    p.exits (ts ++ us) = p.exits ts ++ p.exits us := by
  simp [exits]

theorem stateOf?_eq_some_iff {p : Program} {level : Int} {s : Nat} :
    p.stateOf? level = some s ↔ level = s ∧ s < p.states := by
  unfold stateOf?
  split
  · rw [Option.some.injEq]
    omega
  · simp only [reduceCtorEq, false_iff]
    omega

end Program

/-- A value tells a level, as far as that is below `2 ^ 53` in size. -/
def Tells (x : Float) (level : Int) : Prop :=
  ∀ s : Int, s.natAbs < 2 ^ 53 → (Double.toInt? x = some s ↔ level = s)

section Tells

variable {x : Float} {level : Int}

theorem tells_ofInt (level : Int) : Tells (Double.ofInt level) level :=
  fun _ hs => Double.toInt?_ofInt_iff hs

theorem Tells.beq_iff (h : Tells x level) {s : Int} (hs : s.natAbs < 2 ^ 53) :
    (Double.ofInt s == x) = true ↔ s = level := by
  rw [eq_comm (a := s), ← h s hs]
  refine ⟨fun hb => ?_, Double.ofInt_beq hs⟩
  rw [Double.toInt?_eq_some_iff, ← Double.value?_eq_of_beq hb]
  exact Double.value?_ofInt hs

end Tells

namespace Machine

open Journal

section Observe

variable {m : Machine} {p : Program} {host : Host}

theorem tells_seeing (level : Int) : Tells (m.seeing (Double.ofInt level)).value level := by
  intro s hs
  unfold seeing
  dsimp only
  split
  · rename_i hb
    rw [Double.toInt?_eq_some_iff, ← Double.value?_eq_of_beq hb, ← Double.toInt?_eq_some_iff]
    exact tells_ofInt level s hs
  · exact tells_ofInt level s hs

theorem state?_eq_of_tells (hp : m.program? = some p) (hle : p.states ≤ 257) {level : Int}
    (h : Tells m.value level) : m.state? = p.stateOf? level := by
  refine Option.ext fun s => ?_
  rw [state?_eq_some_iff hp, Program.stateOf?_eq_some_iff]
  refine and_congr_left fun hs => h s ?_
  omega

theorem keys_callHook (hp : m.program? = some p) (s : Nat) (phase : Phase) :
    keys (m.callHook host s phase).2 = if (p.hook? s).isSome then [(s, phase)] else [] := by
  unfold callHook
  rw [hp, Option.bind_some]
  cases p.hook? s <;> rfl

theorem transitions_callHook (s : Nat) (phase : Phase) :
    transitions (m.callHook host s phase).2 = [] := by
  unfold callHook
  split <;> rfl

theorem keys_observe (hp : m.program? = some p) (hle : p.states ≤ 257) {previous : Int}
    (h : Tells m.value previous) : keys (m.observe host p).2.2
      = p.arrival previous (host.level p.variableName) := by
  rw [observe_eq]
  generalize host.level p.variableName = level
  have hs := state?_eq_of_tells (m := m.seeing (Double.ofInt level)) hp hle (tells_seeing level)
  simp only [hs, Program.arrival]
  cases hstate : p.stateOf? level with
  | none => rfl
  | some s =>
    obtain ⟨rfl, hlt⟩ := Program.stateOf?_eq_some_iff.1 hstate
    dsimp only
    rw [keys_callHook (by exact hp)]
    simp only [h.beq_iff (s := s) (by omega)]

theorem transitions_observe : transitions (m.observe host p).2.2 = [] := by
  rw [observe_eq]
  dsimp only
  split
  · exact transitions_callHook ..
  · rfl

end Observe

section Scan

variable {m : Machine} {p : Program} {host : Host} {now : Instant}

theorem keys_fire (hp : m.program? = some p) (origin target : Nat) :
    keys (m.fire host p origin target now).2.2 = p.exits [(origin, target)] := by
  unfold fire
  dsimp only
  rw [keys_append, keys_callHook hp]
  cases h : (p.hook? origin).isSome <;> simp [h, Program.exits, keys, calls]

theorem transitions_fire (origin target : Nat) :
    transitions (m.fire host p origin target now).2.2 = [(origin, target)] := by
  unfold fire
  dsimp only
  rw [transitions_append, transitions_callHook]
  rfl

theorem keys_examination (frame : Frame) (origin position : Nat) (c : Candidate) :
    keys (examination host p frame origin position c) = [] := by
  obtain ⟨reads, notices, he⟩ := examination_eq host p frame origin position c
  simp [he, keys, calls, List.filterMap_map]

theorem transitions_examination (frame : Frame) (origin position : Nat) (c : Candidate) :
    transitions (examination host p frame origin position c) = [] := by
  obtain ⟨reads, notices, he⟩ := examination_eq host p frame origin position c
  simp [he, transitions, List.filterMap_map, Entry.transition?]

/-- A scan calls exit hooks alone, one for each transition whose origin has a hook. -/
theorem keys_scan (origin : Nat) : ∀ (cs : List Candidate) {m : Machine} (host : Host)
    (position : Nat), m.program? = some p → keys (scan p origin now position cs m host).2.2
      = p.exits (transitions (scan p origin now position cs m host).2.2)
  | [], m, host, position, _ => rfl
  | c :: cs, m, host, position, hp => by
    simp only [scan]
    split
    · split
      · rw [keys_append, transitions_append, keys_examination, transitions_examination,
          keys_fire hp, transitions_fire]
        rfl
      · dsimp only
        simp only [keys_append, transitions_append, keys_examination, transitions_examination,
          keys_fire hp, transitions_fire, Program.exits_append, List.nil_append]
        rw [keys_scan origin cs _ (position + 1) (m := (m.fire host p origin c.target now).1) hp]
    · rw [keys_append, transitions_append, keys_examination, transitions_examination]
      exact keys_scan origin cs host (position + 1) hp

theorem keys_applyRules (hp : m.program? = some p) : keys (m.applyRules host p now).2.2
    = p.exits (transitions (m.applyRules host p now).2.2) := by
  unfold applyRules
  dsimp only
  split
  · exact keys_scan _ _ host 0 hp
  · rfl

/-- Where the first satisfied candidate ends the scan, at most one transition is fired, and the
state variable then has its target. -/
theorem scan_firstMatch (origin : Nat) : ∀ (cs : List Candidate) {m : Machine}
    {host : Host} (position : Nat), m.options.scan = .firstMatch →
      transitions (scan p origin now position cs m host).2.2 = [] ∨
      ∃ target, transitions (scan p origin now position cs m host).2.2 = [(origin, target)] ∧
        (∀ e, host.enumerations.lookup p.variableName = some e → e.refused = [] →
          (scan p origin now position cs m host).2.1.level p.variableName = target)
  | [], m, host, position, _ => .inl rfl
  | c :: cs, m, host, position, hs => by
    have hs' : (m.fire host p origin c.target now).1.options.scan = .firstMatch := hs
    simp only [scan, hs']
    split
    · rw [transitions_append, transitions_examination, transitions_fire]
      refine .inr ⟨c.target, rfl, fun e he hr => ?_⟩
      have hf : (m.callHook host origin .exit).1.enumerations = host.enumerations :=
        congrArg (·.enumerations) (m.fixed_callHook host origin .exit)
      exact Host.level_command ((congrArg _ hf).trans he) hr
    · rw [transitions_append, transitions_examination]
      exact scan_firstMatch origin cs (position + 1) hs

end Scan

section Tick

variable {m : Machine} {p : Program} {host : Host} {now horizon : Instant}

theorem applyRules_firstMatch (host : Host) (p : Program) (now : Instant)
    (hs : m.options.scan = .firstMatch) : transitions (m.applyRules host p now).2.2 = [] ∨
      ∃ origin target, transitions (m.applyRules host p now).2.2 = [(origin, target)] ∧
        (∀ e, host.enumerations.lookup p.variableName = some e → e.refused = [] →
          (m.applyRules host p now).2.1.level p.variableName = target) := by
  unfold applyRules
  dsimp only
  split
  · rename_i origin _
    exact (scan_firstMatch origin _ 0 hs).imp_right fun h => ⟨origin, h⟩
  · exact .inl rfl

theorem program?_applyRules (hp : m.program? = some p) :
    (m.applyRules host p now).1.program? = some p := by
  rw [applyRules_machine, program?_arrive, hp]

variable (hp : m.program? = some p) (hh : m.isHeld now horizon = false)
include hp hh

theorem transitions_tickUntil : (m.tickUntil host now horizon).journal.transitions
    = transitions ((m.refreshed now).applyRules host p now).2.2 := by
  rw [tickUntil_of_not_held host now horizon hp hh]
  dsimp only
  rw [transitions_append, transitions_observe, List.append_nil]

theorem length_transitions_tickUntil (hs : m.options.scan = .firstMatch) :
    (m.tickUntil host now horizon).journal.transitions.length ≤ 1 := by
  rw [transitions_tickUntil hp hh]
  rcases applyRules_firstMatch (m := m.refreshed now) host p now hs with h | ⟨_, _, h, -⟩ <;>
    simp [h]

/-- A tick that is not held calls exit hooks, and then a hook of the state that it observes. -/
theorem keys_tickUntil (hle : p.states ≤ 257) {previous : Int} (h : Tells m.value previous) :
    (m.tickUntil host now horizon).journal.keys
      = p.exits (m.tickUntil host now horizon).journal.transitions ++ p.arrival previous
          (((m.refreshed now).applyRules host p now).2.1.level p.variableName) := by
  rw [transitions_tickUntil hp hh, tickUntil_of_not_held host now horizon hp hh]
  have hp₀ : (m.refreshed now).program? = some p := hp
  have hv : ((m.refreshed now).applyRules host p now).1.value = m.value := by
    rw [applyRules_machine, value_arrive]
    rfl
  dsimp only
  rw [keys_append, keys_applyRules hp₀, keys_observe (program?_applyRules hp₀) hle (by rwa [hv])]

/-- The one transition that a tick fires, on a host that does not refuse it, is observed in the
same tick. -/
theorem keys_tickUntil_of_transition (hle : p.states ≤ 257) {previous : Int}
    (h : Tells m.value previous) (hs : m.options.scan = .firstMatch) {e : Enumeration}
    (he : host.enumerations.lookup p.variableName = some e) (hr : e.refused = []) {a b : Nat}
    (hab : (a, b) ∈ (m.tickUntil host now horizon).journal.transitions) :
    (m.tickUntil host now horizon).journal.keys = p.exits [(a, b)] ++ p.arrival previous b := by
  rw [keys_tickUntil hp hh hle h]
  rw [transitions_tickUntil hp hh] at hab ⊢
  rcases applyRules_firstMatch (m := m.refreshed now) host p now hs with
    hnone | ⟨origin, target, hone, hlevel⟩
  · rw [hnone] at hab
    cases hab
  · rw [hone, List.mem_singleton] at hab
    obtain ⟨rfl, rfl⟩ := hab
    rw [hone, hlevel e he hr]

end Tick

end Machine

/-- The level that a tick observes, once it has applied the rules. A tick that is held observes
none. -/
def Deed.observed? (d : Deed) : Option Int :=
  match d.operation, d.machine.program? with
  | .tick now horizon, some p =>
    if d.machine.isHeld now horizon then none
    else some (((d.machine.refreshed now).applyRules d.host p now).2.1.level p.variableName)
  | _, _ => none

/-- The level observed last in a history, `first` when none was. -/
def lastObserved (first : Int) (ds : List Deed) : Int :=
  ((ds.filterMap (·.observed?)).getLast?).getD first

section Last

variable {α β : Type}

theorem getLast?_toList_append (b? : Option β) (bs : List β) (first : β) :
    ((b?.toList ++ bs).getLast?).getD first = (bs.getLast?).getD (b?.getD first) := by
  cases b? <;> simp [List.getLast?_cons]

/-- The last one found in a list is the one found at its head when none is found behind it. -/
theorem getLast?_filterMap_cons (f : α → Option β) (a : α) (as : List α) (first : β) :
    (((a :: as).filterMap f).getLast?).getD first
      = ((as.filterMap f).getLast?).getD ((f a).getD first) := by
  rw [List.filterMap_eq_flatMap_toList, List.flatMap_cons, ← List.filterMap_eq_flatMap_toList,
    getLast?_toList_append]

end Last

theorem lastObserved_cons (first : Int) (d : Deed) (ds : List Deed) :
    lastObserved first (d :: ds) = lastObserved (d.observed?.getD first) ds :=
  getLast?_filterMap_cons ..

namespace Machine

open Journal

/-- While a machine with a program runs, `level` is what it observed last. -/
structure Runs (p : Program) (options : Options) (fixed : Host) (level : Int) (m : Machine)
    (host : Host) : Prop where
  program? : m.program? = some p
  options : m.options = options
  fixed : host.fixed = fixed
  tells : Tells m.value level

section Runs

variable {p : Program} {options : Options} {fixed : Host} {level : Int} {m : Machine} {host : Host}

theorem Runs.perform (h : Runs p options fixed level m host) {op : Operation}
    (hop : op.isRunning) :
    Runs p options fixed ((Deed.observed? ⟨op, m, host, m.perform host op⟩).getD level)
      (m.perform host op).machine (m.perform host op).host := by
  cases op with
  | tick now horizon =>
    refine ⟨(m.tickUntil_program? host now horizon).trans h.program?,
      (m.tickUntil_options host now horizon).trans h.options,
      (m.fixed_tickUntil host now horizon).trans h.fixed, ?_⟩
    simp only [Deed.observed?, h.program?]
    change Tells (m.tickUntil host now horizon).machine.value _
    rcases hh : m.isHeld now horizon with _ | _
    · rw [tickUntil_of_not_held host now horizon h.program? hh]
      dsimp only
      rw [observe_machine]
      exact tells_seeing _
    · rw [tickUntil_of_held host now horizon h.program? hh]
      exact h.tells
  | outside write => exact ⟨h.program?, h.options, h.fixed, h.tells⟩
  | bind | addRule | addHold | setHook | configure | init | reset | clear | setValue | setOptions =>
    exact hop.elim

/-- At every point of a history, the machine has observed last what the history before says. -/
theorem Runs.history : ∀ (ops : List Operation) {level : Int} {m : Machine} {host : Host},
    Runs p options fixed level m host → (∀ op ∈ ops, op.isRunning) →
    ∀ {before : List Deed} {d : Deed} {after : List Deed},
      m.history host ops = before ++ d :: after →
      Runs p options fixed (lastObserved level before) d.machine d.host ∧
        d.effect = d.machine.perform d.host d.operation
  | [], _, _, _, _, _, before, _, _, hd => by simp [Machine.history] at hd
  | op :: ops, level, m, host, h, hops, before, d, after, hd => by
    rw [List.forall_mem_cons] at hops
    rw [Machine.history] at hd
    cases before with
    | nil =>
      obtain ⟨rfl, -⟩ := List.cons.inj hd
      exact ⟨h, rfl⟩
    | cons d' before =>
      obtain ⟨rfl, htail⟩ := List.cons.inj hd
      -- What this operation observes is what counts as observed first in the rest.
      rw [lastObserved_cons]
      exact Runs.history ops (h.perform hops.1) hops.2 htail

theorem runs_init (hp : m.program? = some p) (start : Instant) :
    Runs p m.options host.fixed (host.level p.variableName) (m.init host start) host := by
  refine ⟨hp, rfl, rfl, ?_⟩
  simp only [init, hp]
  exact tells_ofInt _

theorem runs_started (hp : m.program? = some p) (start : Instant) (ops : List Operation)
    (hops : ∀ op ∈ ops, op.isRunning) {before : List Deed} {d : Deed} {after : List Deed}
    (hd : (m.init host start).history host ops = before ++ d :: after) {now horizon : Instant}
    (hop : d.operation = .tick now horizon) :
    Runs p m.options host.fixed (lastObserved (host.level p.variableName) before) d.machine
        d.host ∧
      d.effect.journal = (d.machine.tickUntil d.host now horizon).journal := by
  obtain ⟨hruns, he⟩ := (runs_init hp start).history ops hops hd
  refine ⟨hruns, ?_⟩
  rw [he, hop]
  rfl

/-- Once a machine was started, a tick that is held calls no hook. Another calls the exit hook of
the state that it finds for each transition that it fires, of which there is at most one if the
first match ends the scan. Then it calls the entry hook of the state that it observes, if that is
another than was observed before, or its hook for staying if it is the same. -/
theorem Reachable.calls_hooks (hr : m.Reachable host) (hp : m.program? = some p) (start : Instant)
    (ops : List Operation) (hops : ∀ op ∈ ops, op.isRunning) {before : List Deed} {d : Deed}
    {after : List Deed} (hd : (m.init host start).history host ops = before ++ d :: after)
    {now horizon : Instant} (hop : d.operation = .tick now horizon) :
    (d.machine.isHeld now horizon = true → d.effect.journal.calls = []) ∧
    (d.machine.isHeld now horizon = false → ∃ level, d.observed? = some level ∧
      d.effect.journal.keys = p.exits d.effect.journal.transitions
        ++ p.arrival (lastObserved (host.level p.variableName) before) level ∧
      (∀ t ∈ d.effect.journal.transitions,
        p.stateOf? (d.host.level p.variableName) = some t.1) ∧
      (m.options.scan = .firstMatch → d.effect.journal.transitions.length ≤ 1)) := by
  obtain ⟨hruns, hj⟩ := runs_started hp start ops hops hd hop
  rw [hj]
  refine ⟨fun hh => ?_, fun hh => ⟨_, by simp only [Deed.observed?, hop, hruns.program?, hh]; rfl,
    keys_tickUntil hruns.program? hh (hr.states_le hp) hruns.tells, fun t ht => ?_, fun hs => ?_⟩⟩
  · rw [tickUntil_of_held d.host now horizon hruns.program? hh]
    rfl
  · exact (of_fired_mem_tickUntil hruns.program? (mem_transitions.1 ht)).1
  · exact length_transitions_tickUntil hruns.program? hh (hruns.options ▸ hs)

/-- A switch that is turned on once it was off for as many seconds as its state says, with a hook
on both states. -/
def hookedSwitch : Program where
  variableName := "switch"
  keywords := [⟨"OFF", 0⟩, ⟨"ON", 1⟩]
  rules := ⟨[[⟨1, [⟨.timer, .ge, .state⟩]⟩], []]⟩
  holds := [0.0, 0.0]
  hooks := [some {}, some {}]

/-- Writes the switch. -/
def switchTo (level : Int) : Operation :=
  .outside fun r => { r with levels := r.levels.set "switch" level }

theorem reachable_hookedSwitch (level : Int) :
    Reachable { program? := some hookedSwitch } (switchHost.setLevel "switch" level) :=
  ⟨{}, switchHost, [.bind "switch", .addRule "OFF->ON=$timer>=$state", .setHook "OFF" {},
    .setHook "ON" {}, switchTo level], rfl⟩

/-- What the hooked switch finds and leaves when it is started at the level `first`, then written,
and ticked after two seconds. -/
def hookedHistory (first level : Int) : List Deed :=
  (init { program? := some hookedSwitch } (switchHost.setLevel "switch" first) (.clamp 0)).history
    (switchHost.setLevel "switch" first) [switchTo level, .tick (.clamp 2) .never]

theorem calls_hooks_switch : ∃ before d, hookedHistory 0 0 = before ++ [d] ∧
    d.observed? = some 1 ∧ d.effect.journal.transitions = [(0, 1)] ∧
    d.effect.journal.keys = hookedSwitch.exits d.effect.journal.transitions
      ++ hookedSwitch.arrival (lastObserved 0 before) 1 := by
  refine ⟨[_], _, rfl, by decide +kernel, by decide +kernel, ?_⟩
  obtain ⟨-, hfree⟩ := (reachable_hookedSwitch 0).calls_hooks rfl (.clamp 0)
    [switchTo 0, .tick (.clamp 2) .never] (by simp [switchTo, Operation.isRunning])
    (show _ = [_] ++ _ :: [] from rfl) rfl
  obtain ⟨level, hlevel, hkeys, -⟩ := hfree (by decide +kernel)
  have hone : level = 1 := Option.some.inj (hlevel.symm.trans (by decide +kernel))
  rw [hone] at hkeys
  exact hkeys

/-- Where the first match ends the scan and the host refuses no state, a transition calls the exit
hook of its origin and then one hook of its target: the entry hook, unless the target is what was
observed last, and then the hook for staying. -/
theorem Reachable.passes_hooks (hr : m.Reachable host) (hp : m.program? = some p)
    (hs : m.options.scan = .firstMatch) {e : Enumeration}
    (he : host.enumerations.lookup p.variableName = some e) (hrefused : e.refused = [])
    (start : Instant) (ops : List Operation) (hops : ∀ op ∈ ops, op.isRunning)
    {before : List Deed} {d : Deed} {after : List Deed}
    (hd : (m.init host start).history host ops = before ++ d :: after)
    {now horizon : Instant} (hop : d.operation = .tick now horizon)
    {a b : Nat} (hab : (a, b) ∈ d.effect.journal.transitions) :
    d.effect.journal.keys = (if (p.hook? a).isSome then [(a, .exit)] else [])
      ++ if (p.hook? b).isSome then
          [(b, if b = lastObserved (host.level p.variableName) before then .during else .entry)]
        else [] := by
  obtain ⟨hruns, hj⟩ := runs_started hp start ops hops hd hop
  rw [hj] at hab ⊢
  have hh : d.machine.isHeld now horizon = false := by
    refine Bool.eq_false_iff.2 fun hh => ?_
    rw [tickUntil_of_held d.host now horizon hruns.program? hh] at hab
    cases hab
  have he' : d.host.enumerations.lookup p.variableName = some e := by
    rw [← Host.enumerations_fixed, hruns.fixed, Host.enumerations_fixed, he]
  obtain ⟨-, ⟨c, hc, rfl⟩, -⟩ := of_fired_mem_tickUntil hruns.program? (mem_transitions.1 hab)
  have hstate : p.stateOf? (c.target : Int) = some c.target :=
    Program.stateOf?_eq_some_iff.2 ⟨rfl, ((hr.wellFormed p hp).targets a c hc).1⟩
  rw [keys_tickUntil_of_transition hruns.program? hh (hr.states_le hp) hruns.tells
    (hruns.options ▸ hs) he' hrefused hab]
  simp only [Program.arrival, hstate]
  congr 1
  cases h : (p.hook? a).isSome <;> simp [Program.exits, h]

theorem passes_hooks_switch : ∃ before d, hookedHistory 0 0 = before ++ [d] ∧
    d.effect.journal.transitions = [(0, 1)] ∧
    d.effect.journal.keys = [(0, .exit), (1, .entry)] := by
  refine ⟨[_], _, rfl, by decide +kernel, ?_⟩
  exact (reachable_hookedSwitch 0).passes_hooks rfl rfl (e := ⟨_, []⟩) rfl rfl (.clamp 0)
    [switchTo 0, .tick (.clamp 2) .never] (by simp [switchTo, Operation.isRunning])
    (show _ = [_] ++ _ :: [] from rfl) rfl (a := 0) (b := 1) (by decide +kernel)

/-- A switch that is started on, written off and turned on again by the next tick has its exit hook
called, but its entry hook is not: it was on when it was last observed. -/
theorem misses_entry_switch : ∃ before d, hookedHistory 1 0 = before ++ [d] ∧
    (∀ k, some k ∈ hookedSwitch.hooks → k.isQuiet) ∧ (hookedSwitch.hook? 1).isSome ∧
    d.effect.journal.transitions = [(0, 1)] ∧
    d.effect.journal.keys = [(0, .exit), (1, .during)] := by
  refine ⟨[_], _, rfl, ?_, rfl, by decide +kernel, by decide +kernel⟩
  intro k hk
  simp only [hookedSwitch, List.mem_cons, List.not_mem_nil, or_false, or_self,
    Option.some.injEq] at hk
  rw [hk]
  exact fun _ _ _ => rfl

end Runs

end Machine

end Dwell
