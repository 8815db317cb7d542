import Dwell.Machine.Tick
import Dwell.Proofs.Host
import Dwell.Proofs.Instant

/-!
# What a tick does

A tick of a bound machine either is held, and then only refreshes the elapsed time
(`tickUntil_of_held`), or it examines the candidates of the present state and observes
(`tickUntil_of_not_held`). The candidates are examined one after another, up to the one that ends
the scan (`examined_scan`). The transitions that are fired set the entry time and the dwell of the
machine, as the last of them says (`tickUntil_machine`); its program and options stay, and so does
what properties the host has (`fixed_tickUntil`). A tick answers a later time
(`lt_tickUntil_answer`).
-/

namespace Dwell

/-- The target of a transition that was fired. -/
def Entry.target? : Entry → Option Nat
  | .fired _ target => some target
  | _ => none

/-- A candidate that was examined, by its origin and position, and how it was judged. -/
def Entry.examination? : Entry → Option (Nat × Nat × Judgement)
  | .examined origin position judgement => some (origin, position, judgement)
  | _ => none

namespace Journal

def targets (j : Journal) : List Nat :=
  j.filterMap (·.target?)

def examinations (j : Journal) : List (Nat × Nat × Judgement) :=
  j.filterMap (·.examination?)

variable (j k : Journal)

theorem targets_append : targets (j ++ k) = j.targets ++ k.targets :=
  List.filterMap_append

theorem examinations_append : examinations (j ++ k) = j.examinations ++ k.examinations :=
  List.filterMap_append

end Journal

namespace Machine

open Journal

variable (m : Machine) (host : Host) (p : Program) (now horizon : Instant)

section Hooks

variable (s : Nat) (phase : Phase)

theorem fixed_callHook : (m.callHook host s phase).1.fixed = host.fixed := by
  unfold callHook
  split <;> rfl

theorem targets_callHook : targets (m.callHook host s phase).2 = [] := by
  unfold callHook
  split <;> rfl

theorem examinations_callHook : examinations (m.callHook host s phase).2 = [] := by
  unfold callHook
  split <;> rfl

end Hooks

section Fire

/-- The machine after transitions were fired at `now`, the last of them into the given state. -/
def arrive : Option Nat → Machine
  | none => m
  | some s => { m with entryTime := now, holdUntil := now.after ((p.holds[s]?).getD 0.0) }

theorem arrive_or (s t : Option Nat) :
    (m.arrive p now s).arrive p now t = m.arrive p now (t.or s) := by
  cases s <;> cases t <;> rfl

variable (origin target : Nat)

theorem fire_machine : (m.fire host p origin target now).1 = m.arrive p now (some target) := rfl

theorem targets_fire : targets (m.fire host p origin target now).2.2 = [target] := by
  unfold fire
  dsimp only
  rw [targets_append, targets_callHook]
  rfl

theorem examinations_fire : examinations (m.fire host p origin target now).2.2 = [] := by
  unfold fire
  dsimp only
  rw [examinations_append, examinations_callHook]
  rfl

theorem fixed_fire : (m.fire host p origin target now).2.1.fixed = host.fixed := by
  unfold fire
  exact (Host.fixed_command ..).trans (fixed_callHook ..)

end Fire

section Examination

variable (frame : Frame) (origin position : Nat) (c : Candidate)

/-- Examining a candidate is one examination, between reads of sources and notices. -/
theorem examination_eq : ∃ (reads : List SourceRead) (notices : List Notice),
    examination host p frame origin position c = reads.map .read
      ++ [.examined origin position (c.judge host frame)] ++ notices.map .noted := by
  unfold examination
  dsimp only
  split
  · split
    · exact ⟨_, [_], rfl⟩
    · exact ⟨_, [], rfl⟩
  · exact ⟨_, [], rfl⟩

theorem targets_examination : targets (examination host p frame origin position c) = [] := by
  obtain ⟨reads, notices, he⟩ := examination_eq host p frame origin position c
  simp [he, targets, List.filterMap_map, Entry.target?]

theorem examinations_examination : examinations (examination host p frame origin position c)
    = [(origin, position, c.judge host frame)] := by
  obtain ⟨reads, notices, he⟩ := examination_eq host p frame origin position c
  simp [he, examinations, List.filterMap_map, Entry.examination?]

end Examination

section Scan

variable (origin : Nat)

/-- Candidates are examined in order, the first of them at `position`: each of them, unless one
that is satisfied ends the scan. What fires may change the values that the host has. -/
inductive Examined (policy : Scan) (frame : Frame) :
    Host → Nat → List Candidate → List (Nat × Nat × Judgement) → Prop
  | none {host position} : Examined policy frame host position [] []
  | passed {host position c cs seen} :
    c.judge host frame ≠ .satisfied →
    Examined policy frame host (position + 1) cs seen →
    Examined policy frame host position (c :: cs)
      ((origin, position, c.judge host frame) :: seen)
  | ended {host position c cs} :
    policy = .firstMatch → c.judge host frame = .satisfied →
    Examined policy frame host position (c :: cs) [(origin, position, .satisfied)]
  | fired {host host' position c cs seen} :
    policy = .exhaustive → c.judge host frame = .satisfied → host'.fixed = host.fixed →
    Examined policy frame host' (position + 1) cs seen →
    Examined policy frame host position (c :: cs) ((origin, position, .satisfied) :: seen)

theorem examined_scan : ∀ (cs : List Candidate) (m : Machine) (host : Host) (position : Nat),
    Examined origin m.options.scan m.frame host position cs
      (examinations (scan p origin now position cs m host).2.2)
  | [], m, host, position => .none
  | c :: cs, m, host, position => by
    simp only [scan]
    split
    · rename_i hc
      split
      · rename_i hs
        change m.options.scan = .firstMatch at hs
        rw [examinations_append, examinations_examination, examinations_fire, hc]
        exact .ended hs hc
      · rename_i hs
        change m.options.scan = .exhaustive at hs
        rw [examinations_append, examinations_append, examinations_examination,
          examinations_fire, hc]
        exact .fired hs hc (fixed_fire ..)
          (examined_scan cs (m.fire host p origin c.target now).1 _ (position + 1))
    · rename_i hc
      rw [examinations_append, examinations_examination]
      exact .passed hc (examined_scan cs m host (position + 1))

theorem scan_machine : ∀ (cs : List Candidate) (m : Machine) (host : Host) (position : Nat),
    (scan p origin now position cs m host).1
      = m.arrive p now (targets (scan p origin now position cs m host).2.2).getLast?
  | [], m, host, position => rfl
  | c :: cs, m, host, position => by
    simp only [scan]
    split
    · split
      · rw [targets_append, targets_examination, targets_fire]
        rfl
      · dsimp only
        rw [targets_append, targets_append, targets_examination, targets_fire,
          scan_machine cs, fire_machine, arrive_or, List.nil_append, List.getLast?_append]
        rfl
    · rw [targets_append, targets_examination]
      exact scan_machine cs m host (position + 1)

theorem fixed_scan : ∀ (cs : List Candidate) (m : Machine) (host : Host) (position : Nat),
    (scan p origin now position cs m host).2.1.fixed = host.fixed
  | [], m, host, position => rfl
  | c :: cs, m, host, position => by
    simp only [scan]
    split
    · split
      · exact fixed_fire m host p now origin c.target
      · exact (fixed_scan cs _ _ _).trans (fixed_fire m host p now origin c.target)
    · exact fixed_scan cs m host (position + 1)

theorem applyRules_machine : (m.applyRules host p now).1
    = m.arrive p now (targets (m.applyRules host p now).2.2).getLast? := by
  unfold applyRules
  dsimp only
  split
  · exact scan_machine ..
  · rfl

theorem fixed_applyRules : (m.applyRules host p now).2.1.fixed = host.fixed := by
  unfold applyRules
  dsimp only
  split
  · exact fixed_scan ..
  · rfl

end Scan

section Observe

/-- The machine that observes a value. -/
def seeing (x : Float) : Machine :=
  { m with value := if x == m.value then m.value else x }

theorem program?_seeing (x : Float) : (m.seeing x).program? = m.program? := rfl

/-- Observing takes over the value, and calls one hook of the state that it is. -/
theorem observe_eq : m.observe host p =
    let observed := Double.ofInt (host.level p.variableName)
    (m.seeing observed, match (m.seeing observed).state? with
      | some s => (m.seeing observed).callHook host s
          (if observed == m.value then .during else .entry)
      | none => (host, [])) := by
  have hm : ∀ x, m.seeing x = if x == m.value then m else { m with value := x } := by
    intro x
    unfold seeing
    split <;> rfl
  unfold observe
  dsimp only
  rw [← hm]
  generalize m.seeing _ = m'
  cases m'.state? <;> rfl

theorem observe_machine :
    (m.observe host p).1 = m.seeing (Double.ofInt (host.level p.variableName)) := by
  rw [observe_eq]

theorem targets_observe : targets (m.observe host p).2.2 = [] := by
  rw [observe_eq]
  dsimp only
  split
  · exact targets_callHook ..
  · rfl

theorem examinations_observe : examinations (m.observe host p).2.2 = [] := by
  rw [observe_eq]
  dsimp only
  split
  · exact examinations_callHook ..
  · rfl

theorem fixed_observe : (m.observe host p).2.1.fixed = host.fixed := by
  rw [observe_eq]
  dsimp only
  split
  · exact fixed_callHook ..
  · rfl

end Observe

section TickUntil

/-- The machine at the start of a tick that is not held. -/
def refreshed : Machine :=
  { m with elapsed := now.secondsSince m.entryTime, holdUntil := .never }

variable {m p}

theorem tickUntil_of_unbound (hp : m.program? = none) :
    m.tickUntil host now horizon = ⟨.never, m, host, []⟩ := by
  rw [tickUntil, hp]

theorem tickUntil_of_held (hp : m.program? = some p) (hh : m.isHeld now horizon = true) :
    m.tickUntil host now horizon
      = ⟨m.holdUntil, { m with elapsed := now.secondsSince m.entryTime }, host, []⟩ := by
  cases m
  cases hp
  exact if_pos hh

theorem tickUntil_of_not_held (hp : m.program? = some p) (hh : m.isHeld now horizon = false) :
    m.tickUntil host now horizon =
      let applied := (m.refreshed now).applyRules host p now
      let seen := applied.1.observe applied.2.1 p
      ⟨seen.1.holdUntil.soften seen.1.options.granularity, seen.1, seen.2.1,
        applied.2.2 ++ seen.2.2⟩ := by
  cases m
  cases hp
  exact if_neg (Bool.eq_false_iff.1 hh)

theorem isHeld_iff {now horizon : Instant} :
    m.isHeld now horizon = true ↔ now < m.holdUntil ∧ m.holdUntil < horizon := by
  simp [isHeld]

/-- A tick that fires is a bound machine's, and is not held. -/
theorem of_targets_tickUntil {host : Host} {now horizon : Instant} {s : Nat}
    (hs : (m.tickUntil host now horizon).journal.targets.getLast? = some s) :
    ∃ p, m.program? = some p ∧ m.isHeld now horizon = false := by
  rcases hp : m.program? with _ | p
  · rw [tickUntil_of_unbound host now horizon hp] at hs
    cases hs
  refine ⟨p, rfl, Bool.eq_false_iff.2 fun hh => ?_⟩
  rw [tickUntil_of_held host now horizon hp hh] at hs
  cases hs

/-- A tick that is not held fires what the scan of the state fires that the state variable has. -/
theorem targets_tickUntil_of_not_held (hp : m.program? = some p) (hh : m.isHeld now horizon = false)
    {s : Nat} (hs : p.stateOf? (host.level p.variableName) = some s) :
    (m.tickUntil host now horizon).journal.targets =
      targets (scan p s now 0 (p.rules.candidates s) (m.refreshed now) host).2.2 := by
  rw [tickUntil_of_not_held host now horizon hp hh]
  dsimp only
  rw [targets_append, targets_observe, List.append_nil]
  simp only [applyRules, hs]

variable (m)

/-- Of the machine itself, a tick that is not held sets the entry time and the dwell as the last
transition that it fires says, and takes over a value. -/
theorem tickUntil_machine (hp : m.program? = some p) (hh : m.isHeld now horizon = false) :
    ∃ x, (m.tickUntil host now horizon).machine = (((m.refreshed now).arrive p now
      (targets (m.tickUntil host now horizon).journal).getLast?).seeing x) := by
  refine ⟨Double.ofInt (((m.refreshed now).applyRules host p now).2.1.level p.variableName), ?_⟩
  rw [tickUntil_of_not_held host now horizon hp hh]
  dsimp only
  rw [observe_machine, targets_append, targets_observe, List.append_nil, ← applyRules_machine]

/-- A tick that is not held examines the candidates of the state that the state variable has. -/
theorem examined_tickUntil (hp : m.program? = some p) (hh : m.isHeld now horizon = false) {s : Nat}
    (hs : p.stateOf? (host.level p.variableName) = some s) :
    Examined s m.options.scan ⟨now.secondsSince m.entryTime, m.value⟩ host 0
      (p.rules.candidates s) (examinations (m.tickUntil host now horizon).journal) := by
  rw [tickUntil_of_not_held host now horizon hp hh]
  dsimp only
  rw [examinations_append, examinations_observe, List.append_nil]
  simp only [applyRules, hs]
  exact examined_scan p now s _ (m.refreshed now) host 0

theorem fixed_tickUntil : (m.tickUntil host now horizon).host.fixed = host.fixed := by
  rcases hp : m.program? with _ | p
  · rw [tickUntil_of_unbound host now horizon hp]
  rcases hh : m.isHeld now horizon with _ | _
  · rw [tickUntil_of_not_held host now horizon hp hh]
    exact (fixed_observe ..).trans (fixed_applyRules ..)
  · rw [tickUntil_of_held host now horizon hp hh]

@[simp] theorem program?_arrive (s : Option Nat) : (m.arrive p now s).program? = m.program? := by
  cases s <;> rfl

@[simp] theorem options_arrive (s : Option Nat) : (m.arrive p now s).options = m.options := by
  cases s <;> rfl

theorem tickUntil_program? : (m.tickUntil host now horizon).machine.program? = m.program? := by
  rcases hp : m.program? with _ | p
  · rw [tickUntil_of_unbound host now horizon hp, hp]
  rcases hh : m.isHeld now horizon with _ | _
  · obtain ⟨x, hx⟩ := m.tickUntil_machine host now horizon hp hh
    rw [hx, ← hp]
    exact program?_arrive ..
  · rw [tickUntil_of_held host now horizon hp hh, ← hp]

theorem tickUntil_options : (m.tickUntil host now horizon).machine.options = m.options := by
  rcases hp : m.program? with _ | p
  · rw [tickUntil_of_unbound host now horizon hp]
  rcases hh : m.isHeld now horizon with _ | _
  · obtain ⟨x, hx⟩ := m.tickUntil_machine host now horizon hp hh
    rw [hx]
    exact options_arrive ..
  · rw [tickUntil_of_held host now horizon hp hh]

/-- The dwell that a tick leaves ends later, and the tick answers that time. -/
theorem tickUntil_answer (hp : m.program? = some p) (hnow : now < .never) :
    now < (m.tickUntil host now horizon).machine.holdUntil ∧
      (m.tickUntil host now horizon).machine.holdUntil
        ≤ (m.tickUntil host now horizon).answer := by
  rcases hh : m.isHeld now horizon with _ | _
  · obtain ⟨x, hx⟩ := m.tickUntil_machine host now horizon hp hh
    constructor
    · rw [hx]
      rcases (targets (m.tickUntil host now horizon).journal).getLast? with _ | s
      · exact hnow
      · exact Instant.lt_after hnow _
    · rw [tickUntil_of_not_held host now horizon hp hh]
      exact Instant.le_soften ..
  · rw [tickUntil_of_held host now horizon hp hh]
    exact ⟨isHeld_iff.1 hh |>.1, le_rfl⟩

theorem lt_tickUntil_answer (hnow : now < .never) :
    now < (m.tickUntil host now horizon).answer := by
  rcases hp : m.program? with _ | p
  · rw [tickUntil_of_unbound host now horizon hp]
    exact hnow
  · obtain ⟨h₁, h₂⟩ := m.tickUntil_answer host now horizon hp hnow
    exact lt_of_lt_of_le h₁ h₂

/-- A tick that is not held answers the end of the dwell that it leaves, rounded up. -/
theorem tickUntil_answer_eq (hp : m.program? = some p) (hh : m.isHeld now horizon = false) :
    (m.tickUntil host now horizon).answer
      = (m.tickUntil host now horizon).machine.holdUntil.soften m.options.granularity := by
  have ho := m.tickUntil_options host now horizon
  rw [tickUntil_of_not_held host now horizon hp hh] at ho ⊢
  dsimp only at ho ⊢
  rw [ho]

/-- At `never`, no time is later, and a tick answers that. -/
theorem isAhead_tickUntil : now.IsAhead (m.tickUntil host now horizon).answer := by
  rcases (Instant.le_never now).lt_or_eq with hnow | rfl
  · exact .inl (m.lt_tickUntil_answer host now horizon hnow)
  rcases hp : m.program? with _ | p
  · rw [tickUntil_of_unbound host .never horizon hp]
    exact .inr rfl
  have hh : m.isHeld .never horizon = false := by simp [isHeld, Instant.not_lt_never]
  obtain ⟨x, hx⟩ := m.tickUntil_machine host .never horizon hp hh
  rw [m.tickUntil_answer_eq host .never horizon hp hh, hx]
  cases (targets (m.tickUntil host .never horizon).journal).getLast? <;> exact .inr rfl

/-- At a granularity of one second, a tick answers the end of the dwell itself. -/
theorem tickUntil_answer_of_granularity (hp : m.program? = some p)
    (hg : m.options.granularity ≤ 1) : (m.tickUntil host now horizon).answer
      = (m.tickUntil host now horizon).machine.holdUntil := by
  rcases hh : m.isHeld now horizon with _ | _
  · rw [m.tickUntil_answer_eq host now horizon hp hh, Instant.soften_of_le_one hg]
  · rw [tickUntil_of_held host now horizon hp hh]

end TickUntil

end Machine

end Dwell
