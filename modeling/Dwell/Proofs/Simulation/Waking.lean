import Dwell.Proofs.Machine.Debounce
import Dwell.Proofs.Simulation.Ordering
import Dwell.Proofs.Simulation.Runs

/-!
# Wake times lie ahead

Whatever was done to a machine, a tick answers a later time, or none, and no time before the end of
the dwell that it opened or kept. So the wake time of a registry is later as well, and a run, which
goes by a wake time if that is later than its clock, never leaves one out (`wake_ahead`). The clock
of a run may stand at `never`, where no time is later; every wake time is `never` there, and leaving
it out changes nothing.
-/

namespace Dwell

open Simulation

/-- What a tick answers is later than the tick, and no earlier than the end of the dwell that it
kept or opened. What a registry answers is later too, and every step of a run is followed as early
as the wake time that it got asks for. -/
theorem wake_ahead :
    (∀ (m : Machine) (host : Host) (now horizon : Instant), now < .never →
      let e := m.tickUntil host now horizon
      now < e.answer ∧ e.machine.holdUntil ≤ e.answer ∧
        ∀ p, m.program? = some p →
          (m.isHeld now horizon = true →
            e.machine.holdUntil = m.holdUntil ∧ e.answer = m.holdUntil) ∧
          (m.isHeld now horizon = false →
            e.answer = e.machine.holdUntil.soften m.options.granularity) ∧
          ∀ s, e.journal.targets.getLast? = some s →
            e.machine.holdUntil = now.after ((p.holds[s]?).getD 0.0)) ∧
      (∀ (r : Registry) (now : Instant), now < .never → now < (r.tickAll now).1) ∧
      ∀ s : Simulation, ∀ st ∈ s.run.steps, ∀ pending,
        next s.window pending st.now st.wake
          = min (capped pending (st.now.later s.window.maxStep)) st.wake := by
  refine ⟨fun m host now horizon hnow => ?_, fun r now hnow => (r.isAhead_tickAll now).lt hnow,
    fun s st hst pending => ?_⟩
  · refine ⟨m.lt_tickUntil_answer host now horizon hnow, ?_,
      fun p hp => ⟨fun hh => ?_, m.tickUntil_answer_eq host now horizon hp, ?_⟩⟩
    · rcases hp : m.program? with _ | p
      · rw [Machine.tickUntil_of_unbound host now horizon hp]
        exact Instant.le_never _
      · exact (m.tickUntil_answer host now horizon hp hnow).2
    · rw [Machine.tickUntil_of_held host now horizon hp hh]
      exact ⟨rfl, rfl⟩
    · intro s hs
      obtain ⟨q, hq, hh⟩ := Machine.of_targets_tickUntil hs
      obtain rfl : q = p := Option.some.inj (hq.symm.trans hp)
      obtain ⟨x, hx⟩ := m.tickUntil_machine host now horizon hp hh
      rw [hx, hs]
      rfl
  · obtain ⟨r, r', ht, -⟩ := s.passes_run.takes st hst
    exact next_of_isAhead ht.isAhead_wake

/-- A switch that is woken at multiples of four seconds goes on until seven, and is woken at eight.
A tick in between asks for the end of the dwell itself. -/
theorem wake_ahead_switch :
    let coarse : Machine := { Machine.switchMachine with options := { granularity := 4 } }
    let opened := coarse.tickUntil Machine.switchHost (.clamp 2) .never
    let kept := opened.machine.tickUntil opened.host (.clamp 3) .never
    let room : Registry := ⟨[Machine.switchHost], [⟨0, coarse⟩]⟩
    Instant.clamp 2 < opened.answer ∧ opened.machine.holdUntil ≤ opened.answer ∧
      opened.machine.holdUntil = .clamp 7 ∧ opened.answer = .clamp 8 ∧
      opened.machine.isHeld (.clamp 3) .never = true ∧ kept.answer = opened.machine.holdUntil ∧
      Instant.clamp 2 < (room.tickAll (.clamp 2)).1 ∧
      ∃ s, heating.build.result = .ok s ∧ ∃ st ∈ s.run.steps,
        next s.window [] st.now st.wake = min (st.now.later s.window.maxStep) st.wake := by
  intro coarse opened kept room
  obtain ⟨htick, hall, hrun⟩ := wake_ahead
  obtain ⟨hlt, hle, hopened⟩ := htick coarse Machine.switchHost (.clamp 2) .never (by decide)
  obtain ⟨-, -, hkept⟩ := htick opened.machine opened.host (.clamp 3) .never (by decide)
  have hlast : opened.journal.targets.getLast? = some 1 := by decide +kernel
  obtain ⟨-, hanswer, hfired⟩ := hopened _ rfl
  have hdue := (hfired 1 hlast).trans (show _ = Instant.clamp 7 by decide +kernel)
  have hheld : opened.machine.isHeld (.clamp 3) .never = true := by decide +kernel
  have hbound : opened.machine.program? = coarse.program? := coarse.tickUntil_program? ..
  have hsteps : heating.buildsTo (! ·.run.steps.isEmpty) = true := by decide +kernel
  obtain ⟨s, hs, hne⟩ := Scenario.of_buildsTo hsteps
  obtain ⟨st, hst⟩ := List.exists_mem_of_ne_nil s.run.steps (by simpa using hne)
  exact ⟨hlt, hle, hdue, (hanswer rfl).trans (by rw [hdue]; decide +kernel), hheld,
    ((hkept _ hbound).1 hheld).2, hall room _ (by decide), s, hs, st, hst, hrun s st hst []⟩

end Dwell
