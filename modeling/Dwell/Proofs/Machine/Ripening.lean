import Dwell.Proofs.Machine.Obligation
import Dwell.Proofs.Rule.Evaluating

/-!
# Waiting for as long as a hold

The end of a dwell is counted in whole seconds, and a timer in doubles. They agree: from the end on
the timer shows no less than the seconds of the dwell, and before it no more (`timer_reaches_hold`).
So a rule that waits for as long as the hold of its state is ripe as soon as the hold has ended.
-/

namespace Dwell

theorem Candidate.judge_timer {c : Candidate} {x : Float}
    (hc : c.tests = [⟨.timer, .ge, .literal x⟩]) {host : Host} {frame : Frame}
    (h : x ≤ frame.elapsed) : c.judge host frame = .satisfied := by
  rw [judge, hc, judgeFrom_eq_satisfied_iff, List.forall_mem_singleton,
    Comparison.outcome_eq_isTrue_iff]
  exact ⟨_, _, rfl, rfl, decide_eq_true h⟩

namespace Machine

open Journal

variable {p : Program} {m : Machine} {host : Host} {now horizon : Instant}

/-- A scan fires something if it comes to a candidate that is satisfied on every host. -/
theorem targets_scan_ne_nil {frame : Frame} {c : Candidate}
    (hc : ∀ host, c.judge host frame = .satisfied) (origin : Nat) :
    ∀ (cs : List Candidate) (m : Machine) (host : Host) (position : Nat), c ∈ cs →
      m.frame = frame → targets (scan p origin now position cs m host).2.2 ≠ []
  | [], _, _, _, hmem, _ => by simp at hmem
  | c' :: cs, m, host, position, hmem, hframe => by
    simp only [scan]
    split
    · split <;> dsimp only <;> simp [targets_append, targets_examination, targets_fire]
    · rename_i hnot
      rcases List.mem_cons.1 hmem with rfl | hmem
      · exact absurd (hframe ▸ hc host) hnot
      · rw [targets_append, targets_examination, List.nil_append]
        exact targets_scan_ne_nil hc origin cs m host (position + 1) hmem hframe

theorem targets_tickUntil_ne_nil (hp : m.program? = some p) (hh : m.isHeld now horizon = false)
    {s : Nat} (hs : p.stateOf? (host.level p.variableName) = some s) {c : Candidate}
    (hmem : c ∈ p.rules.candidates s)
    (hc : ∀ host, c.judge host ⟨now.secondsSince m.entryTime, m.value⟩ = .satisfied) :
    (m.tickUntil host now horizon).journal.targets ≠ [] := by
  rw [targets_tickUntil_of_not_held host now horizon hp hh hs]
  exact targets_scan_ne_nil hc s _ (m.refreshed now) host 0 hmem rfl

/-- A dwell ends when the timer shows its seconds: from its end on the timer shows no less, and
before that no more. So after a tick at `t` that entered a state with a hold of `x` seconds, and
others that fired nothing, the first tick from the end of the hold on finds each rule of the state
satisfied that waits for `x` seconds, and fires one if the state variable has the state. -/
theorem timer_reaches_hold {t : Instant} {x : Float} (hx : 0 < x) (hdue : t.after x ≠ .never) :
    (∀ now, t.after x ≤ now → x ≤ now.secondsSince t) ∧
    (∀ now, t ≤ now → now < t.after x → now.secondsSince t ≤ x) ∧
    (∀ now, t ≤ now → now ≠ .never → ∃ v w, Double.value? x = some v ∧
      Double.value? (now.secondsSince t) = some w ∧
      (t.after x ≤ now → v ≤ w) ∧ (now < t.after x → w ≤ v)) ∧
    ∀ (m : Machine) (host : Host) (p : Program) (horizon : Instant) (s : Nat)
      (opened : Effect Instant), m.tickUntil host t horizon = opened → m.program? = some p →
      opened.journal.targets.getLast? = some s → p.holds[s]? = some x →
      ∀ ops : List Operation, (∀ op ∈ ops, op.isRunning) →
      (∀ d ∈ opened.history ops, d.effect.journal.targets = []) →
      ∀ m' host', opened.afterAll ops = (m', host') → ∀ now horizon, t.after x ≤ now →
        m'.isHeld now horizon = false ∧
        ∀ c ∈ p.rules.candidates s, c.tests = [⟨.timer, .ge, .literal x⟩] →
          (∀ host, c.judge host ⟨now.secondsSince t, m'.value⟩ = .satisfied) ∧
          (p.stateOf? (host'.level p.variableName) = some s →
            (m'.tickUntil host' now horizon).journal.targets ≠ []) := by
  obtain ⟨n, hn⟩ := (Instant.after_ne_never_iff hx).1 hdue
  refine ⟨fun now => Instant.le_secondsSince hx hdue,
    fun now => Instant.secondsSince_le hx hdue,
    fun now hle hnow => hn.exists_secondsSince hx hle hnow, ?_⟩
  intro m host p horizon s opened ho hp hs hhold ops hops hnone m' host' hlast now horizon' hnow
  subst ho
  have hopen : t.after ((p.holds[s]?).getD 0.0) = t.after x := by rw [hhold, Option.getD_some]
  have howes := (owes_tickUntil hp hs hopen).afterAll ops hops hnone
  rw [Effect.afterAll] at hlast
  rw [hlast] at howes
  have hheld : m'.isHeld now horizon' = false := by
    rw [howes.isHeld]
    simp [Operation.keeps, not_lt.2 hnow]
  refine ⟨hheld, fun c hc htests => ?_⟩
  have hjudge (host : Host) : c.judge host ⟨now.secondsSince t, m'.value⟩ = .satisfied :=
    Candidate.judge_timer htests (Instant.le_secondsSince hx hdue hnow)
  refine ⟨hjudge, fun hstate => ?_⟩
  rw [← howes.entryTime] at hjudge
  exact targets_tickUntil_ne_nil howes.program? hheld hstate hc hjudge

/-- Turns the switch on after a second, and off again after as many seconds as it is held. -/
def patientMachine : Machine where
  holdUntil := .never
  program? := some {
    variableName := "switch"
    keywords := [⟨"OFF", 0⟩, ⟨"ON", 1⟩]
    rules := ⟨[[⟨1, [⟨.timer, .ge, .literal 1.0⟩]⟩], [⟨0, [⟨.timer, .ge, .literal 5.0⟩]⟩]]⟩
    holds := [0.0, 5.0]
    hooks := [none, none] }

theorem timer_reaches_hold_switch :
    let opened := patientMachine.tickUntil switchHost (.clamp 2) .never
    let held := opened.machine.tickUntil opened.host (.clamp 6) .never
    (5.0 : Float) ≤ (Instant.clamp 7).secondsSince (.clamp 2) ∧
      (Instant.clamp 6).secondsSince (.clamp 2) ≤ (5.0 : Float) ∧
      (held.machine.tickUntil held.host (.clamp 7) .never).journal.targets ≠ [] := by
  intro opened held
  have hafter : (Instant.clamp 2).after 5.0 = .clamp 7 := by decide +kernel
  have hx : (0 : Float) < 5.0 := by decide +kernel
  have hdue : (Instant.clamp 2).after 5.0 ≠ .never := by rw [hafter]; decide
  obtain ⟨hripe, hyoung, -, hfires⟩ := timer_reaches_hold hx hdue
  rw [hafter] at hripe hyoung hfires
  have hs : opened.journal.targets.getLast? = some 1 := by decide +kernel
  have hnone : held.journal.targets = [] := by decide +kernel
  obtain ⟨-, hrules⟩ := hfires patientMachine switchHost _ .never 1 opened rfl rfl hs rfl
    [.tick (.clamp 6) .never] (by simp [Operation.isRunning])
    (by simpa [Effect.history, history, perform, Effect.map] using hnone) held.machine held.host rfl
    (.clamp 7) .never le_rfl
  obtain ⟨-, htargets⟩ := hrules _ List.mem_cons_self rfl
  exact ⟨hripe _ le_rfl, hyoung _ (by decide) (by decide), htargets (by decide +kernel)⟩

end Machine

end Dwell
