import Dwell.Proofs.Machine.Replay

/-!
# Which wake times are rounded

A tick has three ways out. A machine that is not bound answers `never`. A tick that examines
candidates answers the end of the dwell it opened, rounded up to the granularity. A tick that a
dwell holds answers the dwell's end as it is: a multiple of the granularity only if the dwell
happens to end on one (`rounded_answer_iff`).
-/

namespace Dwell.Machine

/-- What a tick answers is `never` or a multiple of the granularity if and only if it is not the end
of a dwell that holds the tick and ends off the granularity. -/
theorem rounded_answer_iff (m : Machine) (host : Host) (now horizon : Instant)
    (hg : 1 ≤ m.options.granularity) :
    let answer := (m.tickUntil host now horizon).answer
    (m.isBound = true → m.isHeld now horizon = true → answer = m.holdUntil) ∧
      (answer = .never ∨ m.options.granularity ∣ answer.seconds ↔
        (m.isBound = true → m.isHeld now horizon = true →
          m.options.granularity ∣ m.holdUntil.seconds)) := by
  intro answer
  rcases hp : m.program? with _ | p
  · have hbound : m.isBound = false := by rw [isBound, hp, Option.isSome_none]
    have hanswer : answer = .never :=
      congrArg Effect.answer (tickUntil_of_unbound host now horizon hp)
    simp [hbound, hanswer]
  have hbound : m.isBound = true := by rw [isBound, hp, Option.isSome_some]
  rcases hh : m.isHeld now horizon with _ | _
  · have hanswer : answer = (m.tickUntil host now horizon).machine.holdUntil.soften _ :=
      tickUntil_answer_eq m host now horizon hp hh
    have hrounded := Instant.soften_eq_never_or_dvd hg
      (m.tickUntil host now horizon).machine.holdUntil
    rw [← hanswer] at hrounded
    simp [hrounded]
  · have hanswer : answer = m.holdUntil :=
      congrArg Effect.answer (tickUntil_of_held host now horizon hp hh)
    -- What holds a tick ends before the horizon, so it does not end at `never`.
    have hne : m.holdUntil ≠ .never := Instant.ne_never_of_lt (isHeld_iff.1 hh).2
    simp [hbound, hanswer, hne]

/-- The switch, woken at multiples of four seconds. -/
def coarseSwitch : List Operation :=
  .setOptions { granularity := 4 } :: switchOperations

/-- The tick that turns the switch on until seven answers eight. -/
theorem rounded_answer_switch :
    let done := ({} : Machine).afterAll switchHost coarseSwitch
    1 ≤ done.1.options.granularity ∧
      4 ∣ (done.1.tickUntil done.2 (.clamp 2) .never).answer.seconds := by
  intro done
  have hg : done.1.options.granularity = 4 := by decide +kernel
  have hfree : done.1.isHeld (.clamp 2) .never = false := by decide +kernel
  have hsome : (done.1.tickUntil done.2 (.clamp 2) .never).answer ≠ .never := by decide +kernel
  have hle : 1 ≤ done.1.options.granularity := by omega
  obtain ⟨-, hiff⟩ := rounded_answer_iff done.1 done.2 (.clamp 2) .never hle
  have hdvd := (hiff.2 fun _ hh => absurd hh (by simp [hfree])).resolve_left hsome
  exact ⟨hle, hg ▸ hdvd⟩

/-- The next tick, at three, is held by the dwell and answers seven. -/
theorem unrounded_answer_switch :
    let opened := ({} : Machine).afterAll switchHost (coarseSwitch ++ [.tick (.clamp 2) .never])
    let answer := (opened.1.tickUntil opened.2 (.clamp 3) .never).answer
    opened.1.Reachable opened.2 ∧ opened.1.options.granularity = 4 ∧ answer = .clamp 7 ∧
      answer ≠ .never ∧ ¬ opened.1.options.granularity ∣ answer.seconds :=
  ⟨⟨_, _, _, rfl⟩, by decide +kernel⟩

end Dwell.Machine
