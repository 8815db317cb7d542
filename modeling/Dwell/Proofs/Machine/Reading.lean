import Dwell.Proofs.Machine.Replay
import Dwell.Proofs.Rule.Evaluating

/-!
# What a tick reads

A tick that is held reads nothing. Any other examines candidates of the present state, one after
another, each on the host as those before it left that (`Journal.Tells`): all of them, or those up
to the first that is satisfied (`Scan.Visits`). What it reads are the reads of these candidates in a
row, and for each candidate it reads no further than the first test that is not true
(`reads_short_circuit`).
-/

namespace Dwell

/-- An examination of a candidate, and the host that it finds. -/
structure Visit where
  candidate : Candidate
  host : Host

namespace Visit

variable (v : Visit) (frame : Frame)

def judgement : Judgement :=
  v.candidate.judge v.host frame

def reads : List SourceRead :=
  v.candidate.reads v.host frame

end Visit

/-- Of the candidates of a list, those are examined that the policy says: all, or on the host as it
is those up to the first that is satisfied. -/
def Scan.Visits (frame : Frame) (host : Host) (cs : List Candidate) (visits : List Visit) :
    Scan → Prop
  | .firstMatch =>
    visits = (cs.take (cs.findIdx (·.judge host frame = .satisfied) + 1)).map (⟨·, host⟩)
  | .exhaustive => visits.map (·.candidate) = cs

namespace Scan

variable {frame : Frame} {host host' : Host} {c : Candidate} {cs : List Candidate}
  {visits : List Visit}

theorem visits_nil (policy : Scan) : policy.Visits frame host [] [] := by
  cases policy <;> rfl

theorem visits_ended (hc : c.judge host frame = .satisfied) :
    firstMatch.Visits frame host (c :: cs) [⟨c, host⟩] := by
  simp [Visits, List.findIdx_cons, hc]

theorem visits_fired (h : exhaustive.Visits frame host' cs visits) :
    exhaustive.Visits frame host (c :: cs) (⟨c, host⟩ :: visits) :=
  congrArg (c :: ·) h

theorem visits_passed {policy : Scan} (hc : c.judge host frame ≠ .satisfied)
    (h : policy.Visits frame host cs visits) :
    policy.Visits frame host (c :: cs) (⟨c, host⟩ :: visits) := by
  cases policy with
  | firstMatch => simp [Visits, List.findIdx_cons, hc, show visits = _ from h]
  | exhaustive => exact visits_fired h

end Scan

namespace Journal

variable (j k : Journal)

theorem reads_append : reads (j ++ k) = j.reads ++ k.reads :=
  List.filterMap_append

/-- Neither a candidate is examined nor a source read. -/
structure IsBlind : Prop where
  reads : j.reads = []
  examinations : j.examinations = []

variable {j k}

theorem IsBlind.append (hj : j.IsBlind) (hk : k.IsBlind) : IsBlind (j ++ k) :=
  ⟨by rw [reads_append, hj.reads, hk.reads, List.nil_append],
    by rw [examinations_append, hj.examinations, hk.examinations, List.nil_append]⟩

/-- The journal tells of examinations in a row, the first of them at a position. Each finds the host
as what is told before it leaves that. -/
inductive Tells (p : Program) (frame : Frame) (origin : Nat) :
    Host → Nat → List Visit → Journal → Prop
  | rest {host position j} : IsBlind j → Tells p frame origin host position [] j
  | visit {host position c visits fired j} :
    IsBlind fired → Tells p frame origin (replay p host fired) (position + 1) visits j →
    Tells p frame origin host position (⟨c, host⟩ :: visits)
      (Machine.examination host p frame origin position c ++ fired ++ j)

variable {p : Program} {frame : Frame} {origin position : Nat} {host : Host} {visits : List Visit}

theorem Tells.append (h : Tells p frame origin host position visits j) (hk : k.IsBlind) :
    Tells p frame origin host position visits (j ++ k) := by
  induction h with
  | rest hj => exact .rest (hj.append hk)
  | visit hfired _ ih =>
    rw [List.append_assoc]
    exact .visit hfired ih

theorem reads_examination (c : Candidate) :
    reads (Machine.examination host p frame origin position c) = c.reads host frame := by
  have hreads : ∀ rs : List SourceRead, reads (rs.map .read) = rs := fun rs => by
    simp [reads, List.filterMap_map]
  unfold Machine.examination
  dsimp only
  rw [reads_append, reads_append, hreads]
  split
  · split <;> simp [reads]
  · simp [reads]

/-- What is read in a row of examinations is what each of them reads. -/
theorem Tells.reads_eq (h : Tells p frame origin host position visits j) :
    j.reads = visits.flatMap (·.reads frame) := by
  induction h with
  | rest hj => exact hj.reads
  | visit hfired _ ih =>
    rw [reads_append, reads_append, reads_examination, hfired.reads, List.append_nil, ih,
      List.flatMap_cons]
    rfl

theorem Tells.examinations_eq (h : Tells p frame origin host position visits j) :
    j.examinations = visits.mapIdx fun i v => (origin, position + i, v.judgement frame) := by
  induction h with
  | rest hj => exact hj.examinations
  | visit hfired _ ih =>
    rw [examinations_append, examinations_append, Machine.examinations_examination,
      hfired.examinations, List.append_nil, ih, List.mapIdx_cons]
    simp only [Nat.add_zero, Nat.add_right_comm _ 1, Nat.add_assoc]
    rfl

end Journal

namespace Machine

open Journal

variable {m : Machine} {host : Host} {p : Program} {now horizon : Instant}

section Blind

variable (host now)

theorem isBlind_callHook (s : Nat) (phase : Phase) : IsBlind (m.callHook host s phase).2 := by
  unfold callHook
  split <;> exact ⟨rfl, rfl⟩

theorem isBlind_fire (origin target : Nat) : IsBlind (m.fire host p origin target now).2.2 := by
  unfold fire
  exact (isBlind_callHook host origin .exit).append ⟨rfl, rfl⟩

theorem isBlind_observe : IsBlind (m.observe host p).2.2 := by
  rw [observe_eq]
  dsimp only
  split
  · exact isBlind_callHook ..
  · exact ⟨rfl, rfl⟩

end Blind

theorem tells_scan (origin : Nat) (now : Instant) : ∀ (cs : List Candidate) {m : Machine}
    (host : Host) (position : Nat), m.program? = some p →
    ∃ visits, m.options.scan.Visits m.frame host cs visits ∧
      Tells p m.frame origin host position visits (scan p origin now position cs m host).2.2
  | [], m, host, position, _ => ⟨[], Scan.visits_nil _, .rest ⟨rfl, rfl⟩⟩
  | c :: cs, m, host, position, hp => by
    simp only [scan]
    split
    · rename_i hc
      have hblind := isBlind_fire (m := m) (p := p) host now origin c.target
      split
      · rename_i hpolicy
        have hpolicy : m.options.scan = .firstMatch := hpolicy
        refine ⟨[⟨c, host⟩], hpolicy ▸ Scan.visits_ended hc, ?_⟩
        rw [← List.append_nil (_ ++ _)]
        exact .visit hblind (.rest ⟨rfl, rfl⟩)
      · rename_i hpolicy
        have hpolicy : m.options.scan = .exhaustive := hpolicy
        obtain ⟨visits, hvisits, htells⟩ := tells_scan origin now cs
          (m.fire host p origin c.target now).2.1 (position + 1)
          (show (m.fire host p origin c.target now).1.program? = some p from hp)
        rw [fire_machine, options_arrive, hpolicy] at hvisits
        refine ⟨⟨c, host⟩ :: visits, hpolicy ▸ Scan.visits_fired hvisits, .visit hblind ?_⟩
        rw [← host_fire_eq_replay hp]
        exact htells
    · rename_i hc
      obtain ⟨visits, hvisits, htells⟩ := tells_scan origin now cs host (position + 1) hp
      refine ⟨⟨c, host⟩ :: visits, Scan.visits_passed hc hvisits, ?_⟩
      rw [← List.append_nil (examination ..)]
      exact .visit ⟨rfl, rfl⟩ htells

section TickUntil

variable (host now horizon)

theorem tells_tickUntil (hp : m.program? = some p) (hh : m.isHeld now horizon = false) {s : Nat}
    (hs : p.stateOf? (host.level p.variableName) = some s) :
    ∃ visits, m.options.scan.Visits ⟨now.secondsSince m.entryTime, m.value⟩ host
        (p.rules.candidates s) visits ∧
      Tells p ⟨now.secondsSince m.entryTime, m.value⟩ s host 0 visits
        (m.tickUntil host now horizon).journal := by
  have hp' : (m.refreshed now).program? = some p := hp
  obtain ⟨visits, hvisits, htells⟩ := tells_scan s now (p.rules.candidates s) host 0 hp'
  refine ⟨visits, hvisits, ?_⟩
  rw [tickUntil_of_not_held host now horizon hp hh]
  simp only [applyRules, hs]
  exact htells.append (isBlind_observe _)

/-- Nothing is read while the machine is not bound, while a dwell is kept, and where the state
variable is in no state. -/
theorem isBlind_tickUntil (h : ∀ p, m.program? = some p →
      m.isHeld now horizon = true ∨ p.stateOf? (host.level p.variableName) = none) :
    IsBlind (m.tickUntil host now horizon).journal := by
  rcases hp : m.program? with _ | p
  · rw [tickUntil_of_unbound host now horizon hp]
    exact ⟨rfl, rfl⟩
  rcases hh : m.isHeld now horizon with _ | _
  · have hs := (h p hp).resolve_left (by simp [hh])
    rw [tickUntil_of_not_held host now horizon hp hh]
    simp only [applyRules, hs]
    exact IsBlind.append ⟨rfl, rfl⟩ (isBlind_observe _)
  · rw [tickUntil_of_held host now horizon hp hh]
    exact ⟨rfl, rfl⟩

end TickUntil

/-- Whatever the machine and its host: a candidate is read up to its first test that is not true. A
tick reads what the candidates that it examines are read, one after another, and these are
candidates of the present state, all of them or up to the first that is satisfied; a tick that
examines none reads nothing. -/
theorem reads_short_circuit (m : Machine) (host : Host) (now horizon : Instant) :
    (∀ (c : Candidate) (h : Host) (frame : Frame), c.ShortCircuits h frame) ∧
    ((∀ p, m.program? = some p →
        m.isHeld now horizon = true ∨ p.stateOf? (host.level p.variableName) = none) →
      IsBlind (m.tickUntil host now horizon).journal) ∧
    ∀ p s, m.program? = some p → m.isHeld now horizon = false →
      p.stateOf? (host.level p.variableName) = some s →
      let frame : Frame := ⟨now.secondsSince m.entryTime, m.value⟩
      ∃ visits, m.options.scan.Visits frame host (p.rules.candidates s) visits ∧
        Tells p frame s host 0 visits (m.tickUntil host now horizon).journal ∧
        (m.tickUntil host now horizon).journal.examinations
          = visits.mapIdx (fun i v => (s, i, v.judgement frame)) ∧
        (m.tickUntil host now horizon).journal.reads = visits.flatMap (·.reads frame) := by
  refine ⟨fun c h frame => c.shortCircuits h frame, isBlind_tickUntil host now horizon,
    fun p s hp hh hs => ?_⟩
  obtain ⟨visits, hvisits, htells⟩ := tells_tickUntil host now horizon hp hh hs
  refine ⟨visits, hvisits, htells, ?_, htells.reads_eq⟩
  simpa only [Nat.zero_add] using htells.examinations_eq

/-- A host with sources, of which one cannot be read. -/
def valveHost : Host :=
  { name := "cellar"
    enumerations := [("valve", ⟨[⟨"SHUT", 0⟩, ⟨"OPEN", 1⟩], []⟩)]
    sources := [("inflow", { read := fun _ => some (2.0 : Float) }),
      ("level", { read := fun _ => some (0.0 : Float) }),
      ("probe", { read := fun _ => (none : Option Float) })] }

/-- Opens a valve, for reasons of which the third one holds. -/
def valve : Program where
  variableName := "valve"
  keywords := [⟨"SHUT", 0⟩, ⟨"OPEN", 1⟩]
  rules := ⟨[[
    ⟨1, [⟨.element "inflow" 0, .gt, .literal 1.0⟩, ⟨.element "level" 0, .gt, .literal 1.0⟩,
      ⟨.element "inflow" 1, .gt, .literal 1.0⟩]⟩,
    ⟨1, [⟨.element "probe" 3, .lt, .element "level" 0⟩]⟩,
    ⟨1, [⟨.element "level" 0, .lt, .element "inflow" 0⟩]⟩,
    ⟨1, [⟨.element "inflow" 2, .gt, .literal 1.0⟩]⟩], []]⟩
  holds := [0.0, 0.0]
  hooks := [none, none]

theorem reads_short_circuit_valve :
    let m : Machine := { program? := some valve, holdUntil := .clamp 5 }
    let held := m.tickUntil valveHost (.clamp 3) .never
    let e := m.tickUntil valveHost (.clamp 5) .never
    let frame : Frame := ⟨(Instant.clamp 5).secondsSince m.entryTime, m.value⟩
    m.isHeld (.clamp 3) .never = true ∧ held.journal.reads = [] ∧
      m.isHeld (.clamp 5) .never = false ∧ valve.stateOf? (valveHost.level "valve") = some 0 ∧
      (valve.rules.candidates 0).map (·.judge valveHost frame)
        = [.stopped 1 .isFalse, .stopped 0 (.unread .left), .satisfied, .satisfied] ∧
      e.journal.reads
        = [⟨"inflow", 0⟩, ⟨"level", 0⟩, ⟨"probe", 3⟩, ⟨"level", 0⟩, ⟨"inflow", 0⟩] ∧
      ∃ visits, Scan.firstMatch.Visits frame valveHost (valve.rules.candidates 0) visits ∧
        e.journal.reads = visits.flatMap (·.reads frame) := by
  intro m held e frame
  have hheld : m.isHeld (.clamp 3) .never = true := by decide +kernel
  have hh : m.isHeld (.clamp 5) .never = false := by decide +kernel
  have hs : valve.stateOf? (valveHost.level "valve") = some 0 := by decide +kernel
  obtain ⟨-, hblind, -⟩ := reads_short_circuit m valveHost (.clamp 3) .never
  obtain ⟨-, -, htick⟩ := reads_short_circuit m valveHost (.clamp 5) .never
  obtain ⟨visits, hvisits, -, -, hreads⟩ := htick valve 0 rfl hh hs
  exact ⟨hheld, (hblind fun _ _ => .inl hheld).reads, hh, hs, by decide +kernel, by decide +kernel,
    visits, hvisits, hreads⟩

end Machine

end Dwell
