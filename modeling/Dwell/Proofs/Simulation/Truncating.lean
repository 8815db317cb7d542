import Dwell.Proofs.Simulation.Trace

/-!
# Runs to an earlier end

What a run does up to some time does not depend on where its window ends, if that is no earlier. So
a run to an earlier end takes the steps of a longer one that are not later than its own end, and no
others (`Passes.until`), and the state entries it reports are those of the longer one up to there
(`Scenario.transitions_until`).
-/

namespace Dwell

/-- The window with another end. -/
def Window.until (w : Window) (t : Instant) : Window :=
  { w with stop := t }

/-- The scenario with another end of its window. -/
def Scenario.until (sc : Scenario) (t : Instant) : Scenario :=
  { sc with window := sc.window.until t }

namespace Simulation

variable {w : Window} {r : Registry} {pending : List Event} {now t : Instant} {run : Run}

/-- The steps up to `t` of a run that finishes are those of the run to `t`, which finishes, too. -/
theorem Passes.until (h : Passes w r pending now run) (hf : run.ending = .finished)
    (ht : t ≤ w.stop) (hnow : now ≤ t) : ∃ run', Passes (w.until t) r pending now run' ∧
      run'.ending = .finished ∧ run'.steps = run.steps.filter (·.now ≤ t) := by
  induction h with
  | failed _ | stuck _ _ _ _ => cases hf
  | @finished r pending r' st he htakes hstop =>
    exact ⟨_, .finished he htakes (ht.trans_lt hstop), rfl, by simp [hnow]⟩
  | @passed r pending r' now run st he htakes hnext _ hlt hrest ih =>
    rcases le_or_gt now t with hle | hgt
    · obtain ⟨run', hrun', hf', hsteps⟩ := ih hf hle
      refine ⟨_, .passed he htakes hnext hle hlt hrun', hf', ?_⟩
      simp [hsteps, hnow]
    · -- The longer run goes on behind `t`.
      have hnone : run.steps.filter (·.now ≤ t) = [] := by
        refine List.filter_eq_nil_iff.2 fun st' hst' hle => ?_
        exact absurd (hgt.trans_le (hrest.le_now st' hst')) (not_lt.2 (of_decide_eq_true hle))
      refine ⟨_, .finished he htakes (hnext ▸ hgt), rfl, ?_⟩
      simp [hnone, hnow]

theorem time_of_mem_stateEntries {st : Step} {a : StateEntry} (ha : a ∈ st.stateEntries r) :
    a.time = st.now := by
  obtain ⟨x, -, hx⟩ := List.mem_filterMap.1 ha
  rw [Registry.entered?_eq, Option.map_eq_some_iff] at hx
  obtain ⟨y, -, rfl⟩ := hx
  rfl

theorem stateEntries_of_fixed {r' : Registry} (h : r'.fixed = r.fixed) (st : Step) :
    st.stateEntries r' = st.stateEntries r := by
  simp only [Step.stateEntries, Registry.entered?_eq]
  have hentry : ∀ x, r'.entry st.now x = r.entry st.now x := fun x => by
    rw [Registry.entry, Registry.entry, Registry.hostName_of_fixed h]
  simp only [funext hentry]

/-- The state entries up to `t` are those of the steps up to `t`. -/
theorem filter_stateEntries_time (run : Run) (t : Instant) : run.stateEntries.filter (·.time ≤ t)
    = (run.steps.filter (·.now ≤ t)).flatMap (·.stateEntries run.registry) := by
  rw [Run.stateEntries]
  induction run.steps with
  | nil => rfl
  | cons st steps ih =>
    have hentries : (st.stateEntries run.registry).filter (·.time ≤ t)
        = if st.now ≤ t then st.stateEntries run.registry else [] := by
      split
      · rename_i hle
        refine List.filter_eq_self.2 fun a ha => ?_
        rw [time_of_mem_stateEntries ha, decide_eq_true hle]
      · rename_i hle
        refine List.filter_eq_nil_iff.2 fun a ha => ?_
        rw [time_of_mem_stateEntries ha]
        simpa using hle
    rw [List.flatMap_cons, List.filter_append, ih, hentries, List.filter_cons]
    by_cases hle : st.now ≤ t <;> simp [hle]

end Simulation

variable {sc : Scenario} {t t' : Instant} {s s' : Simulation}

theorem Scenario.until_build (hb : (sc.until t).build.result = .ok s)
    (hb' : (sc.until t').build.result = .ok s') :
    s.opening = s'.opening ∧ s.events = s'.events ∧ s.window = s'.window.until t ∧
      s.window.start ≤ t ∧ s'.window.stop = t' ∧ s.trace = [] ∧ s'.trace = [] := by
  obtain ⟨hflaw, hr, hw, he, htrace, -⟩ := build_ok hb
  obtain ⟨-, hr', hw', he', htrace', -⟩ := build_ok hb'
  obtain ⟨hwindow, -⟩ := flaw?_eq_none hflaw
  have hregistry : s.registry = s'.registry := Except.ok.inj (hr.symm.trans hr')
  refine ⟨?_, he.trans he'.symm, ?_, ?_, ?_, htrace, htrace'⟩
  · rw [Simulation.opening, Simulation.opening, hregistry, hw, hw']
    rfl
  · rw [hw, hw']
    rfl
  · rw [hw]
    exact hwindow
  · rw [hw']
    rfl

/-- When a run finishes, so does the run of the scenario to an earlier end. It has the steps and
reports the state entries that the longer run has up to there. -/
theorem Scenario.transitions_until (ht : t ≤ t') (hb : (sc.until t).build.result = .ok s)
    (hb' : (sc.until t').build.result = .ok s') (hf : s'.run.ending = .finished) :
    s.run.ending = .finished ∧
      (s.report s.run).transitions = (s'.report s'.run).transitions.filter (·.time ≤ t) ∧
      (s.report s.run).steps = (s'.run.times.filter (· ≤ t)).length := by
  obtain ⟨hopen, he, hw, hstart, hstop, htrace, htrace'⟩ := until_build hb hb'
  have hstart' : s'.window.start ≤ t := by
    rw [hw] at hstart
    exact hstart
  obtain ⟨run, hrun, hfinished, hsteps⟩ := s'.passes_run.until hf (ht.trans hstop.ge) hstart'
  -- It is the run to `t`, as there is no other one along its passes.
  have hrun' : s.run = run := by
    have hpasses := s.passes_run.eq_stepFrom
    rw [hopen, he, hw] at hpasses
    exact hpasses.trans hrun.eq_stepFrom.symm
  have hfixed : s.run.registry.fixed = s'.run.registry.fixed := by
    rw [s.passes_run.fixed, hopen, s'.passes_run.fixed]
  refine ⟨hrun' ▸ hfinished, ?_, ?_⟩
  · rw [Simulation.transitions_report htrace, Simulation.transitions_report htrace']
    change _ = s'.run.stateEntries.filter (·.time ≤ t)
    rw [Simulation.filter_stateEntries_time, hrun', hsteps]
    exact List.flatMap_congr fun st _ =>
      Simulation.stateEntries_of_fixed (hrun' ▸ hfixed) st
  · change s.run.steps.length = _
    rw [hrun', hsteps, Run.times, List.filter_map, List.length_map]
    rfl

/-- A run that ends as the fan goes off still takes that step, and ends with it. -/
theorem transitions_until_airing : ∃ s s', (airing.until (.clamp 7)).build.result = .ok s ∧
    (airing.until (.clamp 10)).build.result = .ok s' ∧ s'.run.ending = .finished ∧
    s'.run.times = [.clamp 0, .clamp 4, .clamp 6, .clamp 7, .clamp 10] ∧
    s.run.ending = .finished ∧ (s.report s.run).steps = 4 ∧
    (s.report s.run).transitions = (s'.report s'.run).transitions.filter (·.time ≤ .clamp 7) ∧
    (⟨.clamp 7, "room", "fan", "OFF"⟩ : StateEntry) ∈ (s.report s.run).transitions := by
  have h : (airing.until (.clamp 7)).buildsTo (fun s =>
      decide (⟨.clamp 7, "room", "fan", "OFF"⟩ ∈ (s.report s.run).transitions)) = true := by
    decide +kernel
  have h' : (airing.until (.clamp 10)).buildsTo (fun s => s.run.ending.isFinished &&
      decide (s.run.times = [.clamp 0, .clamp 4, .clamp 6, .clamp 7, .clamp 10])) = true := by
    decide +kernel
  obtain ⟨s, hs, hmem⟩ := Scenario.of_buildsTo h
  obtain ⟨s', hs', hrun'⟩ := Scenario.of_buildsTo h'
  rw [Bool.and_eq_true, Ending.isFinished_iff, decide_eq_true_iff] at hrun'
  obtain ⟨hf, htransitions, hsteps⟩ := Scenario.transitions_until (by decide) hs hs' hrun'.1
  refine ⟨s, s', hs, hs', hrun'.1, hrun'.2, hf, ?_, htransitions, of_decide_eq_true hmem⟩
  rw [hsteps, hrun'.2]
  decide

end Dwell
