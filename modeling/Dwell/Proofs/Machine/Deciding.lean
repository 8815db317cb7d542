import Dwell.Proofs.Machine.Entering
import Dwell.Proofs.Rule.Evaluating

/-!
# Which candidate decides a tick

Of the candidates of the present state, those count whose tests can all be read and are true. The
first of them decides the tick, or the last one when every candidate is examined: the machine enters
its target at the tick and owes the dwell of that state (`decided_tickUntil`).

A transition writes the state variable alone, and tests do not read that, unless a source shows it.
Where none does (`Program.Steady`), a satisfied candidate changes nothing for those behind it, and
examining every candidate of a list ends where the first satisfied one of the reversed list does.
-/

namespace Dwell

/-- All tests of the candidate can be read, and are true. -/
def Candidate.Satisfied (c : Candidate) (host : Host) (frame : Frame) : Prop :=
  ∀ t ∈ c.tests, ∃ a b, t.left.value? host frame = some a ∧ t.right.value? host frame = some b ∧
    t.comparator.holds a b = true

namespace Candidate

variable {host : Host} {frame : Frame}

theorem judge_eq_satisfied_iff {c : Candidate} :
    c.judge host frame = .satisfied ↔ c.Satisfied host frame := by
  simp only [judge, judgeFrom_eq_satisfied_iff, Satisfied, Comparison.outcome_eq_isTrue_iff]

instance (c : Candidate) : Decidable (c.Satisfied host frame) :=
  decidable_of_iff _ judge_eq_satisfied_iff

theorem satisfied_of_agree {names : Set String} {host' : Host} {c : Candidate}
    (hc : c.Ignores host namesᶜ) (a : host.Agree names host') :
    c.Satisfied host' frame ↔ c.Satisfied host frame := by
  rw [← judge_eq_satisfied_iff, ← judge_eq_satisfied_iff, (c.of_agree hc a frame).1]

end Candidate

/-- No source that the candidates of a state read depends on the state variable. -/
def Program.Steady (p : Program) (host : Host) (s : Nat) : Prop :=
  ∀ c ∈ p.rules.candidates s, c.Ignores host {p.variableName}

namespace Scan

/-- Of satisfied candidates in order, the one that decides. -/
def decides : Scan → List Candidate → Option Candidate
  | .firstMatch, cs => cs.head?
  | .exhaustive, cs => cs.getLast?

/-- Of satisfied candidates in order, those that fire. -/
def fires : Scan → List Candidate → List Candidate
  | .firstMatch, cs => cs.take 1
  | .exhaustive, cs => cs

theorem getLast?_fires (policy : Scan) (cs : List Candidate) :
    (policy.fires cs).getLast? = policy.decides cs := by
  rcases policy with _ | _
  · cases cs <;> rfl
  · rfl

theorem decides_reverse (cs : List Candidate) :
    firstMatch.decides cs.reverse = exhaustive.decides cs :=
  List.head?_reverse

end Scan

namespace Journal

variable {p : Program}

theorem level_replay (hq : p.IsQuiet) : ∀ (j : Journal) (host : Host),
    (∀ e, host.enumerations.lookup p.variableName = some e → e.refused = []) →
    (replay p host j).level p.variableName =
      (targets j).getLast?.elim (host.level p.variableName) (↑·)
  | [], host, _ => rfl
  | .examined _ _ _ :: j, host, hfree => level_replay hq j host hfree
  | .read _ :: j, host, hfree => level_replay hq j host hfree
  | .noted _ :: j, host, hfree => level_replay hq j host hfree
  | .called c :: j, host, hfree => by
    rw [replay, List.foldl_cons, Machine.replay_called hq]
    exact level_replay hq j host hfree
  | .fired origin target :: j, host, hfree => by
    have he : (host.command p.variableName target).enumerations = host.enumerations :=
      congrArg (·.enumerations) (host.fixed_command p.variableName target)
    have ih := level_replay hq j (host.command p.variableName target) (by rwa [he])
    have ht : targets (.fired origin target :: j) = target :: targets j := rfl
    rw [ht, List.getLast?_cons]
    refine ih.trans ?_
    rw [Host.level_command_of_free hfree]
    cases (targets j).getLast? <;> rfl

end Journal

namespace Machine

open Journal

variable {m : Machine} {host : Host} {p : Program} {now horizon : Instant}

/-- Of the candidates of a state that are satisfied where a scan starts, those fire that the options
say. -/
theorem targets_scan (hq : p.IsQuiet) (origin : Nat) (now : Instant) : ∀ (cs : List Candidate)
    (m : Machine) (host : Host) (position : Nat), m.program? = some p →
    (m.options.scan = .exhaustive → cs.filter (·.Satisfied host m.frame) ≠ [] →
      ∀ c ∈ cs, c.Ignores host {p.variableName}) →
    targets (scan p origin now position cs m host).2.2 =
      (m.options.scan.fires (cs.filter (·.Satisfied host m.frame))).map (·.target)
  | [], m, host, position, _, _ => by
    cases h : m.options.scan <;> rfl
  | c :: cs, m, host, position, hp, hi => by
    simp only [scan]
    split
    · rename_i hc
      rw [List.filter_cons_of_pos (by simpa using Candidate.judge_eq_satisfied_iff.1 hc)] at hi ⊢
      split
      · rename_i hpolicy
        have hpolicy : m.options.scan = .firstMatch := hpolicy
        dsimp only
        rw [hpolicy, targets_append, targets_examination, targets_fire]
        rfl
      · rename_i hpolicy
        have hpolicy : m.options.scan = .exhaustive := hpolicy
        -- What the candidate wrote does not show to those behind it.
        have ha : host.Agree {p.variableName}ᶜ (m.fire host p origin c.target now).2.1 := by
          rw [host_fire hp hq]
          exact host.agree_command ..
        have hi := (List.forall_mem_cons.1 (hi hpolicy (by simp))).2
        have hsame : cs.filter (·.Satisfied (m.fire host p origin c.target now).2.1 m.frame) =
            cs.filter (·.Satisfied host m.frame) :=
          List.filter_congr fun c' hc' => by
            have hc' : c'.Ignores host {p.variableName}ᶜᶜ := by
              rw [compl_compl]
              exact hi c' hc'
            simp only [Candidate.satisfied_of_agree hc' ha]
        have ih := targets_scan hq origin now cs (m.fire host p origin c.target now).1
          (m.fire host p origin c.target now).2.1 (position + 1) hp
          fun _ _ c' hc' => (hi c' hc').of_fixed (fixed_fire m host p now origin c.target)
        rw [fire_machine, options_arrive, hpolicy] at ih
        dsimp only
        rw [targets_append, targets_append, targets_examination, targets_fire, fire_machine, ih,
          hpolicy, ← hsame]
        rfl
    · rename_i hc
      rw [List.filter_cons_of_neg (by simpa using mt Candidate.judge_eq_satisfied_iff.2 hc)] at hi ⊢
      rw [targets_append, targets_examination]
      exact targets_scan hq origin now cs m host (position + 1) hp
        fun hpolicy hne => (List.forall_mem_cons.1 (hi hpolicy hne)).2

/-- The candidates of a state that are satisfied when a tick begins. -/
def satisfied (m : Machine) (host : Host) (p : Program) (now : Instant) (s : Nat) :
    List Candidate :=
  (p.rules.candidates s).filter (·.Satisfied host ⟨now.secondsSince m.entryTime, m.value⟩)

section Tick

variable (host now horizon) (hp : m.program? = some p) (hh : m.isHeld now horizon = false)
include hp hh

section Targets

variable (hq : p.IsQuiet) {s : Nat} (hs : p.stateOf? (host.level p.variableName) = some s)
  (hi : m.options.scan = .exhaustive → m.satisfied host p now s ≠ [] → p.Steady host s)
include hq hs hi

theorem targets_tickUntil : targets (m.tickUntil host now horizon).journal =
    (m.options.scan.fires (m.satisfied host p now s)).map (·.target) := by
  rw [targets_tickUntil_of_not_held host now horizon hp hh hs]
  exact targets_scan hq s now _ (m.refreshed now) host 0 hp hi

theorem lastTarget_tickUntil : (targets (m.tickUntil host now horizon).journal).getLast? =
    (m.options.scan.decides (m.satisfied host p now s)).map (·.target) := by
  rw [targets_tickUntil host now horizon hp hh hq hs hi, List.getLast?_map, Scan.getLast?_fires]

end Targets

omit hh in
theorem level_tickUntil (hq : p.IsQuiet)
    (hfree : ∀ e, host.enumerations.lookup p.variableName = some e → e.refused = []) :
    (m.tickUntil host now horizon).host.level p.variableName =
      (targets (m.tickUntil host now horizon).journal).getLast?.elim
        (host.level p.variableName) (↑·) := by
  rw [host_tickUntil hp]
  exact level_replay hq _ host hfree

theorem machine_tickUntil (hq : p.IsQuiet) : (m.tickUntil host now horizon).machine =
    (((m.refreshed now).arrive p now
      (targets (m.tickUntil host now horizon).journal).getLast?).seeing
        (Double.ofInt ((m.tickUntil host now horizon).host.level p.variableName))) := by
  rw [tickUntil_of_not_held host now horizon hp hh]
  have hp' : ((m.refreshed now).applyRules host p now).1.program? = some p := by
    rw [applyRules_machine, program?_arrive]
    exact hp
  dsimp only
  rw [host_observe hp' hq, observe_machine, targets_append, targets_observe, List.append_nil,
    ← applyRules_machine]

end Tick

section Reversed

/-- The machine with another program, whose candidates it scans in a given way. -/
def scanning (m : Machine) (policy : Scan) (p : Program) : Machine :=
  { m with options := { m.options with scan := policy }, program? := some p }

variable {g : RuleGraph} {s : Nat}

/-- Two machines, of which one examines each candidate, and the other one goes through them from the
end up to the first that is satisfied, do the same. -/
theorem tickUntil_reversed (hq : p.IsQuiet)
    (hfree : ∀ e, host.enumerations.lookup p.variableName = some e → e.refused = [])
    (hh : m.isHeld now horizon = false) (hs : p.stateOf? (host.level p.variableName) = some s)
    (hi : m.satisfied host p now s ≠ [] → p.Steady host s)
    (hg : g.states = p.rules.states) (hreverse : g.candidates s = (p.rules.candidates s).reverse) :
    let every := (m.scanning .exhaustive p).tickUntil host now horizon
    let first := (m.scanning .firstMatch { p with rules := g }).tickUntil host now horizon
    every.host.Agree Set.univ first.host ∧ first.answer = every.answer ∧
      first.machine = every.machine.scanning .firstMatch { p with rules := g } := by
  intro every first
  have hp : (m.scanning .exhaustive p).program? = some p := rfl
  have hp' : (m.scanning .firstMatch { p with rules := g }).program?
    = some { p with rules := g } := rfl
  have hs' : ({ p with rules := g } : Program).stateOf? (host.level p.variableName) = some s := by
    rw [← hs]
    simp only [Program.stateOf?, Program.states, hg]
    rfl
  have hlast : (targets first.journal).getLast? = (targets every.journal).getLast? := by
    refine (lastTarget_tickUntil host now horizon hp' hh hq hs' Scan.noConfusion).trans ?_
    refine Eq.trans ?_ (lastTarget_tickUntil host now horizon hp hh hq hs fun _ => hi).symm
    simp only [satisfied, hreverse, List.filter_reverse]
    exact congrArg _ (Scan.decides_reverse _)
  have hlevel : first.host.level p.variableName = every.host.level p.variableName := by
    refine (level_tickUntil host now horizon hp' hq hfree).trans ?_
    rw [hlast]
    exact (level_tickUntil host now horizon hp hq hfree).symm
  have hmachine : first.machine = every.machine.scanning .firstMatch { p with rules := g } := by
    refine (machine_tickUntil host now horizon hp' hh hq).trans ?_
    rw [hlast, machine_tickUntil host now horizon hp hh hq, hlevel]
    cases (targets every.journal).getLast? <;> rfl
  have ha : every.host.Agree {p.variableName}ᶜ first.host :=
    (agree_tickUntil hq hp host now horizon).symm.trans
      (agree_tickUntil (p := { p with rules := g }) hq hp' host now horizon)
  refine ⟨⟨ha.fixed, ha.numbers, fun name _ => ?_⟩, ?_, hmachine⟩
  · by_cases hn : name = p.variableName
    · rw [hn, hlevel]
    · exact ha.level name hn
  · have he := tickUntil_answer_eq _ host now horizon hp hh
    have hf := tickUntil_answer_eq _ host now horizon hp' hh
    rw [hf, hmachine]
    exact he.symm

end Reversed

/-- A tick entered the target of a candidate and began its dwell, or it fired nothing. -/
def EndsIn (m : Machine) (host : Host) (p : Program) (now : Instant) (e : Effect Instant) :
    Option Candidate → Prop
  | some c => e.host.level p.variableName = c.target ∧ e.machine.entryTime = now ∧
      e.machine.holdUntil = now.after ((p.holds[c.target]?).getD 0.0)
  | none => e.journal.targets = [] ∧ e.host.level p.variableName = host.level p.variableName ∧
      e.machine.entryTime = m.entryTime ∧ e.machine.holdUntil = .never

/-- On a host that refuses no state, and when no hook writes, the first satisfied candidate of the
present state decides a tick, or the last one if each is examined. So examining each candidate of a
list, and going through the reversed list up to the first that is satisfied, leave the same. Where
each is examined and one is satisfied, no source that they read may depend on the state variable. -/
theorem decided_tickUntil (hp : m.program? = some p)
    (hfree : ∀ e, host.enumerations.lookup p.variableName = some e → e.refused = [])
    (hq : p.IsQuiet) (hh : m.isHeld now horizon = false) {s : Nat}
    (hs : p.stateOf? (host.level p.variableName) = some s)
    (hi : m.options.scan = .exhaustive → m.satisfied host p now s ≠ [] → p.Steady host s) :
    m.EndsIn host p now (m.tickUntil host now horizon)
        (m.options.scan.decides (m.satisfied host p now s)) ∧
      (m.tickUntil host now horizon).answer
        = (m.tickUntil host now horizon).machine.holdUntil.soften m.options.granularity ∧
      ((m.satisfied host p now s ≠ [] → p.Steady host s) → ∀ g : RuleGraph,
        g.states = p.rules.states → g.candidates s = (p.rules.candidates s).reverse →
        let every := (m.scanning .exhaustive p).tickUntil host now horizon
        let first := (m.scanning .firstMatch { p with rules := g }).tickUntil host now horizon
        every.host.Agree Set.univ first.host ∧ first.answer = every.answer ∧
          first.machine = every.machine.scanning .firstMatch { p with rules := g }) := by
  refine ⟨?_, m.tickUntil_answer_eq host now horizon hp hh,
    fun hsteady g hg hreverse => tickUntil_reversed hq hfree hh hs hsteady hg hreverse⟩
  have hlevel := level_tickUntil host now horizon hp hq hfree
  have hmachine := machine_tickUntil host now horizon hp hh hq
  have hlast := lastTarget_tickUntil host now horizon hp hh hq hs hi
  generalize m.options.scan.decides _ = decided at hlast ⊢
  rw [hlast] at hlevel hmachine
  rcases decided with _ | c
  · exact ⟨List.getLast?_eq_none_iff.1 hlast, hlevel, by rw [hmachine]; rfl, by rw [hmachine]; rfl⟩
  · exact ⟨hlevel, by rw [hmachine]; rfl, by rw [hmachine]; rfl⟩

/-- A switch in a room with a window, and a source that shows the value of one of the two. -/
def showingHost (shown : String) : Host :=
  (switchHost.withEnumeration "window" ⟨[⟨"SHUT", 0⟩, ⟨"OPEN", 1⟩], []⟩ 0).showing "shown" shown

/-- Turns a switch on after a second while the source shows nothing, but leaves it off after two. -/
def wavering : Program where
  variableName := "switch"
  keywords := [⟨"OFF", 0⟩, ⟨"ON", 1⟩]
  rules := ⟨[[⟨1, [⟨.timer, .ge, .literal 1.0⟩, ⟨.element "shown" 0, .lt, .literal 1.0⟩]⟩,
    ⟨0, [⟨.timer, .ge, .literal 2.0⟩]⟩], []]⟩
  holds := [0.0, 5.0]
  hooks := [none, none]

theorem decided_tickUntil_wavering :
    let host := showingHost "window"
    let m : Machine :=
      { options.scan := .exhaustive, program? := some wavering, holdUntil := .never }
    let satisfied := m.satisfied host wavering (.clamp 3) 0
    let every := (m.scanning .exhaustive wavering).tickUntil host (.clamp 3) .never
    let first := (m.scanning .firstMatch { wavering with
      rules := ⟨[(wavering.rules.candidates 0).reverse, []]⟩ }).tickUntil host (.clamp 3) .never
    (∀ e, host.enumerations.lookup "switch" = some e → e.refused = []) ∧
      wavering.IsQuiet ∧ m.isHeld (.clamp 3) .never = false ∧
      wavering.stateOf? (host.level "switch") = some 0 ∧
      satisfied.map (·.target) = [1, 0] ∧ wavering.Steady host 0 ∧
      m.EndsIn host wavering (.clamp 3) (m.tickUntil host (.clamp 3) .never)
        (Scan.exhaustive.decides satisfied) ∧
      every.journal.targets = [1, 0] ∧ first.journal.targets = [0] ∧
      first.answer = every.answer ∧ first.host.level "switch" = every.host.level "switch" := by
  intro host m satisfied every first
  have hfree : ∀ e, host.enumerations.lookup "switch" = some e → e.refused = [] := by
    rintro e h
    cases h
    rfl
  have hq : wavering.IsQuiet := by
    simp [Program.IsQuiet, wavering]
  have hheld : m.isHeld (.clamp 3) .never = false := rfl
  have hsteady : wavering.Steady host 0 := fun _ _ _ _ _ property _ _ =>
    Host.ignores_showing rfl (by decide) "shown" property
  obtain ⟨hends, -, hreversed⟩ :=
    decided_tickUntil rfl hfree hq hheld (s := 0) rfl fun _ _ => hsteady
  obtain ⟨ha, hanswer, -⟩ :=
    hreversed (fun _ => hsteady) ⟨[(wavering.rules.candidates 0).reverse, []]⟩ rfl rfl
  exact ⟨hfree, hq, hheld, rfl, by decide +kernel, hsteady, hends, by decide +kernel,
    by decide +kernel, hanswer, ha.level _ (Set.mem_univ _)⟩

/-- Turns a switch on after a second, but leaves it off if the source shows something. -/
def echoing : Program where
  variableName := "switch"
  keywords := [⟨"OFF", 0⟩, ⟨"ON", 1⟩]
  rules := ⟨[[⟨1, [⟨.timer, .ge, .literal 1.0⟩]⟩, ⟨0, [⟨.element "shown" 0, .gt, .literal 0.0⟩]⟩],
    []]⟩
  holds := [0.0, 0.0]
  hooks := [none, none]

/-- Turns a switch on after more seconds than a timer counts. -/
def patient : Program where
  variableName := "switch"
  keywords := [⟨"OFF", 0⟩, ⟨"ON", 1⟩]
  rules := ⟨[[⟨1, [⟨.timer, .ge, .literal 1e19⟩]⟩], []]⟩
  holds := [0.0, 0.0]
  hooks := [none, none]

/-- Where the source shows the switch itself, a candidate that was not satisfied when the tick began
can decide it, since the one before it turned the switch on. And a timer stops at the greatest
number of seconds it counts: a switch that is to wait for more does not go on, even where it has
been off for longer. -/
theorem decided_by_written_echoing :
    (let host := showingHost "switch"
      let m : Machine :=
        { options.scan := .exhaustive, program? := some echoing, holdUntil := .never }
      let satisfied := m.satisfied host echoing (.clamp 1) 0
      m.Reachable host ∧ m.isHeld (.clamp 1) .never = false ∧
        echoing.stateOf? (host.level "switch") = some 0 ∧ satisfied.map (·.target) = [1] ∧
        (m.tickUntil host (.clamp 1) .never).journal.targets = [1, 0] ∧
        ¬m.EndsIn host echoing (.clamp 1) (m.tickUntil host (.clamp 1) .never)
          (m.options.scan.decides satisfied)) ∧
    (let m : Machine :=
        { program? := some patient, entryTime := .clamp (-9000000000000000000),
          holdUntil := .never }
      let now := Instant.clamp 9000000000000000000
      let satisfied := (patient.rules.candidates 0).filter
        (·.Satisfied switchHost ⟨Double.ofInt (now.seconds - m.entryTime.seconds), m.value⟩)
      m.Reachable switchHost ∧ m.isHeld now .never = false ∧
        patient.stateOf? (switchHost.level "switch") = some 0 ∧ satisfied.map (·.target) = [1] ∧
        (m.tickUntil switchHost now .never).journal.targets = [] ∧
        ¬m.EndsIn switchHost patient now (m.tickUntil switchHost now .never)
          (m.options.scan.decides satisfied)) := by
  refine ⟨⟨⟨{ scan := .exhaustive }, showingHost "switch", [.bind "switch",
      .addRule "OFF->ON=$timer>=1", .addRule "OFF->OFF=shown>0", .init (.clamp 0)], rfl⟩,
      rfl, rfl, by decide +kernel, by decide +kernel, ?_⟩,
    ⟨{}, switchHost, [.bind "switch", .addRule "OFF->ON=$timer>=1e19",
      .init (.clamp (-9000000000000000000))], rfl⟩,
    rfl, rfl, by decide +kernel, by decide +kernel, ?_⟩
  · rintro ⟨hlevel, -⟩
    revert hlevel
    decide +kernel
  · rintro ⟨hlevel, -⟩
    revert hlevel
    decide +kernel

end Machine

end Dwell
