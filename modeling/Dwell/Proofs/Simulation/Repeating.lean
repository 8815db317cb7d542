import Dwell.Proofs.Simulation.Ordering
import Dwell.Proofs.Simulation.Truncating

/-!
# Reports of repeated runs

A simulation can be run again and again, and each of its runs makes entries of its own, in the order
of time. The trace is not begun anew with a run: a report gives the entries of all earlier runs
before those of its own run, so it is a report of that run just when the earlier ones made no entry
(`Scenario.transitions_afterRuns`).
-/

namespace Dwell

namespace Simulation

variable {w : Window} {r : Registry} {pending : List Event} {now : Instant} {run : Run}

/-- The entries of a run are in the order of time. -/
theorem Passes.pairwise_stateEntries (h : Passes w r pending now run) :
    run.stateEntries.Pairwise (·.time ≤ ·.time) := by
  refine List.pairwise_flatMap.2 ⟨fun st _ => ?_, h.pairwise_now.imp fun hlt a ha b hb => ?_⟩
  · refine List.pairwise_of_forall_mem_list fun a ha b hb => ?_
    rw [time_of_mem_stateEntries ha, time_of_mem_stateEntries hb]
  · rw [time_of_mem_stateEntries ha, time_of_mem_stateEntries hb]
    exact hlt.le

theorem Passes.time_of_mem_stateEntries (h : Passes w r pending now run) (hnow : now ≤ w.stop) :
    ∀ a ∈ run.stateEntries, now ≤ a.time ∧ a.time ≤ w.stop := by
  intro a ha
  obtain ⟨st, hst, ha⟩ := List.mem_flatMap.1 ha
  rw [Simulation.time_of_mem_stateEntries ha]
  exact ⟨h.le_now st hst, h.now_le_stop hnow st hst⟩

/-- A run adds its entries to those of the runs before it. -/
theorem trace_afterRuns (s : Simulation) : ∀ n, (s.afterRuns n).trace
    = s.trace ++ (List.range n).flatMap fun k => (s.afterRuns k).run.stateEntries
  | 0 => by simp [afterRuns]
  | n + 1 => by
    change (s.afterRuns n).trace ++ (s.afterRuns n).run.stateEntries = _
    rw [s.trace_afterRuns n, List.range_succ, List.flatMap_append, List.flatMap_singleton,
      List.append_assoc]

end Simulation

variable {sc : Scenario} {s : Simulation}

theorem Scenario.Yields.afterRuns (h : sc.Yields s) : ∀ n, sc.Yields (s.afterRuns n)
  | 0 => h
  | n + 1 => (h.afterRuns n).again

/-- The report of a run after `n` others gives the entries of all these runs, one run after the
other. Those of its own run are in the order of time and in the window; they are what it gives just
when no earlier run made an entry. -/
theorem Scenario.transitions_afterRuns (hb : sc.build.result = .ok s) (n : Nat) :
    let run k := (s.afterRuns k).run
    let transitions := ((s.afterRuns n).report (run n)).transitions
    (transitions = (List.range (n + 1)).flatMap fun k => (run k).stateEntries) ∧
    (run n).stateEntries.Pairwise (·.time ≤ ·.time) ∧
    (∀ a ∈ (run n).stateEntries, sc.window.start ≤ a.time ∧ a.time ≤ sc.window.stop) ∧
    (transitions = (run n).stateEntries ↔ ∀ k < n, (run k).stateEntries = []) := by
  intro run transitions
  obtain ⟨-, -, -, -, htrace, -⟩ := build_ok hb
  obtain ⟨hflaw, hw, -⟩ := (Scenario.Yields.afterRuns (.built hb) n).fixed
  have hpasses := (s.afterRuns n).passes_run
  rw [hw] at hpasses
  have hall : transitions = ((List.range n).flatMap fun k => (run k).stateEntries)
      ++ (run n).stateEntries := by
    change (s.afterRuns n).trace ++ _ = _
    rw [s.trace_afterRuns n, htrace, List.nil_append]
  refine ⟨?_, hpasses.pairwise_stateEntries,
    hpasses.time_of_mem_stateEntries (flaw?_eq_none hflaw).1, ?_⟩
  · rw [hall, List.range_succ, List.flatMap_append, List.flatMap_singleton]
  · rw [hall, List.append_left_eq_self, List.flatMap_eq_nil_iff]
    simp only [List.mem_range]

/-- A lamp that goes on in the first step that it can, and off again four seconds later. -/
def lamp : Scenario where
  window := ⟨.clamp 0, .clamp 10, 4⟩
  hosts := [{
    name := "room"
    properties := [("lamp", .enumeration [⟨"OFF", 0⟩, ⟨"ON", 1⟩] 0)]
    machines := ["state:lamp;rule:OFF->ON=$timer>=2;rule:ON->OFF=$timer>=3"] }]

/-- The second report gives the entries of the first run, too, and so they come twice. -/
theorem transitions_afterRuns_lamp : ∃ s, lamp.build.result = .ok s ∧
    (s.afterRuns 0).run.stateEntries = [⟨.clamp 4, "room", "lamp", "ON"⟩,
      ⟨.clamp 8, "room", "lamp", "OFF"⟩] ∧
    ((s.afterRuns 1).report (s.afterRuns 1).run).transitions
      = (s.afterRuns 0).run.stateEntries ++ (s.afterRuns 1).run.stateEntries ∧
    ((s.afterRuns 1).report (s.afterRuns 1).run).transitions
      ≠ (s.afterRuns 1).run.stateEntries := by
  have h : lamp.buildsTo (fun s => (s.afterRuns 0).run.stateEntries =
      [⟨.clamp 4, "room", "lamp", "ON"⟩, ⟨.clamp 8, "room", "lamp", "OFF"⟩]) = true := by
    decide +kernel
  obtain ⟨s, hs, hfirst⟩ := Scenario.of_buildsTo h
  rw [decide_eq_true_iff] at hfirst
  obtain ⟨hall, -, -, hown⟩ := Scenario.transitions_afterRuns hs 1
  refine ⟨s, hs, hfirst, by simpa [List.range_succ] using hall, fun he => ?_⟩
  have hnone := hown.1 he 0 (by decide)
  rw [hfirst] at hnone
  cases hnone

/-- Both runs of the lamp succeed, and the report of the second does not have its entries in the
order of time: those that were made in the first run stand before them. -/
theorem transitions_second_lamp : ∃ s, lamp.build.result = .ok s ∧ s.window.stop < .never ∧
    (s.afterRuns 0).run.ending = .finished ∧ (s.afterRuns 1).run.ending = .finished ∧
    (s.afterRuns 1).run.stateEntries = [⟨.clamp 4, "room", "lamp", "ON"⟩,
      ⟨.clamp 8, "room", "lamp", "OFF"⟩] ∧
    ((s.afterRuns 1).report (s.afterRuns 1).run).transitions = [⟨.clamp 4, "room", "lamp", "ON"⟩,
      ⟨.clamp 8, "room", "lamp", "OFF"⟩, ⟨.clamp 4, "room", "lamp", "ON"⟩,
      ⟨.clamp 8, "room", "lamp", "OFF"⟩] := by
  have h : lamp.buildsTo (fun s => (s.afterRuns 0).run.ending.isFinished &&
      (s.afterRuns 1).run.ending.isFinished && decide (s.window.stop < .never ∧
        (s.afterRuns 1).run.stateEntries = [⟨.clamp 4, "room", "lamp", "ON"⟩,
          ⟨.clamp 8, "room", "lamp", "OFF"⟩] ∧
        ((s.afterRuns 1).report (s.afterRuns 1).run).transitions =
          [⟨.clamp 4, "room", "lamp", "ON"⟩, ⟨.clamp 8, "room", "lamp", "OFF"⟩,
            ⟨.clamp 4, "room", "lamp", "ON"⟩, ⟨.clamp 8, "room", "lamp", "OFF"⟩])) = true := by
    decide +kernel
  obtain ⟨s, hs, hruns⟩ := Scenario.of_buildsTo h
  simp only [Bool.and_eq_true, Ending.isFinished_iff, decide_eq_true_iff] at hruns
  obtain ⟨⟨hf, hf'⟩, hstop, hown, htransitions⟩ := hruns
  exact ⟨s, hs, hstop, hf, hf', hown, htransitions⟩

end Dwell
