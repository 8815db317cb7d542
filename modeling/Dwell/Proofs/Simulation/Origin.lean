import Dwell.Proofs.Simulation.Retiming
import Dwell.Proofs.Simulation.Shifting

/-!
# The origin of the clock

A scenario all of whose times are moved by some seconds is the same scenario on a clock that is so
many seconds ahead. It builds what it built before, at another time, and reports the same of its
first run, with the times moved (`Scenario.report_shift`).
-/

namespace Dwell

def StateEntry.shift (a : StateEntry) (k : Int) : StateEntry :=
  { a with time := a.time.moved k }

def Report.shift (r : Report) (k : Int) : Report :=
  { r with
    start := r.start.moved k
    stop := r.stop.moved k
    transitions := r.transitions.map (·.shift k) }

def Scenario.shift (sc : Scenario) (k : Int) : Scenario :=
  { sc with window := sc.window.shift k, events := sc.events.map (·.shift k) }

/-- The times that a scenario gives. -/
def Scenario.times (sc : Scenario) : List Instant :=
  sc.window.start :: sc.window.stop :: sc.events.map (·.time)

section Reports

variable {r : Registry} {k : Int} {now : Instant} {run : Run}

theorem Sighting.entered?_shift (hnow : now ≠ .never) (x : Sighting) :
    (x.shift k).entered? (r.shift k) (now.shift k) = (x.entered? r now).map (·.shift k) := by
  rw [Instant.shift_of_ne_never hnow]
  obtain ⟨host, entry⟩ := x
  cases entry with
  | called c =>
    obtain ⟨_, phase, _, _⟩ := c
    cases phase <;> rfl
  | noted n => cases n <;> rfl
  | _ => rfl

/-- A shifted run makes the same state entries, with their times moved. -/
theorem Run.stateEntries_shift (h : ∀ st ∈ run.steps, st.now ≠ .never) :
    (run.shift k).stateEntries = run.stateEntries.map (·.shift k) := by
  simp only [Run.stateEntries, Run.shift, List.flatMap_map, List.map_flatMap]
  refine List.flatMap_congr fun st hst => ?_
  simp only [Step.stateEntries, Step.shift, List.filterMap_map, List.map_filterMap]
  exact congrArg₂ List.filterMap (funext fun x => x.entered?_shift (h st hst)) rfl

theorem Registry.summaries_shift : (r.shift k).summaries = r.summaries := by
  simp only [Registry.summaries, Registry.shift, List.map_map]
  rfl

theorem Simulation.report_run_shift {s s' : Simulation} (hw : s'.window = s.window.shift k)
    (ht : s.trace = []) (ht' : s'.trace = []) (h : ∀ st ∈ run.steps, st.now ≠ .never) :
    s'.report (run.shift k) = (s.report run).shift k := by
  simp only [Simulation.report, Report.shift, hw, ht, ht', List.nil_append,
    Run.stateEntries_shift h]
  simp only [Run.shift, List.length_map, Registry.summaries_shift, Window.shift]

end Reports

section Building

variable {sc : Scenario} {k : Int} {r : Registry} {s : Simulation}

theorem Registry.initAll_shift (hr : r.Fits) {now : Instant} (hnow : now ≠ .never) :
    r.initAll (now.moved k) = (r.initAll now).shift k := by
  simp only [initAll, shift, List.map_map]
  congr 1
  refine List.map_congr_left fun st hst => ?_
  have hhost := List.getElem?_eq_getElem (hr st hst)
  simp only [Function.comp_apply, Station.shift, hhost]
  rw [← Instant.shift_of_ne_never hnow]
  rfl

theorem Scenario.flaw?_shift (hstart : sc.window.start.Movable k) (hstop : sc.window.stop.Movable k)
    (h : sc.flaw? = none) : (sc.shift k).flaw? = none := by
  have hle := (flaw?_eq_none h).1
  have hle' : (sc.shift k).window.start ≤ (sc.shift k).window.stop :=
    (Instant.moved_le_moved_iff hstart hstop).2 hle
  unfold flaw? at h ⊢
  dsimp only at h ⊢
  rw [if_neg (not_lt.2 hle)] at h
  rw [if_neg (not_lt.2 hle')]
  exact h

theorem sortEvents_shift {events : List Event} (h : ∀ e ∈ events, e.time.Movable k) :
    sortEvents (events.map (·.shift k)) = (sortEvents events).map (·.shift k) := by
  refine (List.map_mergeSort fun a ha b hb => decide_eq_decide.2 ?_).symm
  exact (Instant.moved_le_moved_iff (h a ha) (h b hb)).symm

theorem Registry.checkEvent_shift {r' : Registry} (hr : r'.hosts = r.hosts) (e : Event) :
    r'.checkEvent (e.shift k) = (r.checkEvent e).mapError (·.shift k) := by
  have hhost : r'.host? e.host = r.host? e.host := by
    rw [Registry.host?, Registry.host?, hr]
  unfold Registry.checkEvent
  dsimp only [Event.shift]
  rw [hhost]
  rcases r.host? e.host with _ | host
  · rfl
  · dsimp only
    split <;> rfl

theorem Registry.forM_checkEvent_shift {r' : Registry} (hr : r'.hosts = r.hosts) :
    ∀ {events : List Event}, events.forM r.checkEvent = .ok () →
      (events.map (·.shift k)).forM r'.checkEvent = .ok ()
  | [], _ => rfl
  | e :: es, h => by
    obtain ⟨_, he, hes⟩ := bind_eq_ok (x := r.checkEvent e) h
    change (r'.checkEvent (e.shift k)).bind _ = _
    rw [checkEvent_shift hr, he]
    exact forM_checkEvent_shift hr hes

/-- The shifted scenario builds the registry as it is when it is built at another time. -/
theorem Scenario.build_shift (hb : sc.build.result = .ok s) (ht : ∀ t ∈ sc.times, t.Movable k) :
    ∃ s', (sc.shift k).build.result = .ok s' ∧ s'.window = s.window.shift k ∧
      s'.events = s.events.map (·.shift k) ∧ s'.trace = [] ∧
      s'.registry.untimed = s.registry.untimed := by
  obtain ⟨hflaw, hr, hw, he, -, hcheck⟩ := build_ok hb
  simp only [times, List.forall_mem_cons, List.forall_mem_map] at ht
  obtain ⟨hstart, hstop, hevents⟩ := ht
  obtain ⟨r', hr', hregistry⟩ := assemble_untimed (sc.window.start.moved k) hr
  have hhosts : r'.hosts = s.registry.hosts := congrArg (·.hosts) hregistry
  have hcheck' := Registry.forM_checkEvent_shift (k := k) hhosts hcheck
  rw [← sortEvents_shift hevents] at hcheck'
  refine ⟨_, result_build (flaw?_shift hstart hstop hflaw) hr' hcheck', ?_, ?_, rfl, hregistry⟩
  · rw [hw]
    rfl
  · rw [he]
    exact sortEvents_shift hevents

/-- The machines of a simulation can be shifted where there is room for the dwells they open. -/
theorem Scenario.shiftable_opening (hb : sc.build.result = .ok s) (hk : sc.options.granularity ∣ k)
    (hnow : sc.window.start.InReach k sc.window.stop)
    (hroom : ∀ st ∈ s.registry.stations,
      st.machine.HasRoom sc.window.stop ∧ st.machine.HasRoom (sc.window.stop.moved k)) :
    s.opening.Shiftable k sc.window.stop := by
  obtain ⟨hflaw, hr, hw, -⟩ := Scenario.build_ok hb
  obtain ⟨-, -, hgranularity, -⟩ := Scenario.flaw?_eq_none hflaw
  intro st hst
  obtain ⟨st₀, hst₀, rfl⟩ := List.mem_map.1 hst
  obtain ⟨_, _, -, -, hc⟩ := (assemble_ok hr).2 st₀ hst₀
  obtain ⟨hroom, hroom'⟩ := hroom st₀ hst₀
  have hfits := (Scenario.Yields.built hb).fits_registry
  rw [List.getElem?_eq_getElem (hfits st₀ hst₀), hw]
  have hoptions : ∀ host, (st₀.machine.init host sc.window.start).options = sc.options :=
    fun _ => hc.options
  exact {
    entryTime := hnow.shiftable
    holdUntil := Instant.shiftable_never k
    quiet := fun p hp i hi => hc.watches p hp i hi ▸ Hook.isQuiet_watching
    granularity := (hoptions _).symm ▸ hgranularity
    dvd := (hoptions _).symm ▸ hk
    room := hroom
    room' := hroom' }

end Building

namespace Scenario

variable {sc : Scenario} {k : Int} {s s' : Simulation} (hb : sc.build.result = .ok s)
  (hk : sc.options.granularity ∣ k) (ht : ∀ t ∈ sc.times, t.Movable k)
  (hroom : ∀ st ∈ s.registry.stations,
    st.machine.HasRoom sc.window.stop ∧ st.machine.HasRoom (sc.window.stop.moved k))
include hb hk ht hroom

/-- The first run of the shifted scenario is the first run of the scenario, shifted. -/
theorem run_shift (hb' : (sc.shift k).build.result = .ok s') (hstop : sc.window.stop < .never)
    (hstop' : sc.window.stop.moved k < .never) : s'.run = s.run.shift k := by
  obtain ⟨s'', hb'', hw', he', -, hregistry⟩ := build_shift hb ht
  obtain rfl : s'' = s' := Except.ok.inj (hb''.symm.trans hb')
  obtain ⟨hflaw, -, hw, he, -⟩ := build_ok hb
  obtain ⟨hwindow, hmax, -⟩ := flaw?_eq_none hflaw
  have hnow : sc.window.start.InReach k sc.window.stop := by
    refine ⟨hwindow, hstop, (ht sc.window.start (by simp [times])).1, ?_⟩
    rwa [Instant.lt_iff, (ht sc.window.stop (by simp [times])).seconds_moved] at hstop'
  have hstart : s''.window.start = s.window.start.shift k := by
    rw [hw', hw, Instant.shift_of_ne_never hnow.ne_never]
    rfl
  -- Starting the machines sets their times, so it does not show when they were built.
  have hopening : s''.opening = s.opening.shift k := by
    have hfits := (Yields.built hb).fits_registry
    rw [Simulation.opening, ← Registry.initAll_untimed (Yields.built hb').fits_registry, hregistry,
      Registry.initAll_untimed hfits, Simulation.opening, hw', hw]
    exact Registry.initAll_shift hfits hnow.ne_never
  have hevents : ∀ e ∈ s.events, e.time.Movable k := by
    intro e hmem
    rw [he, (sortEvents_perm _).mem_iff] at hmem
    exact ht _ (by simp only [times, List.mem_cons, List.mem_map]; exact .inr (.inr ⟨e, hmem, rfl⟩))
  have hpasses := s.passes_run.shift (hw ▸ hmax) (hw ▸ shiftable_opening hb hk hnow hroom) hevents
    (hw ▸ hnow)
  rw [hpasses.eq_stepFrom, ← hopening, ← he', ← hw', ← hstart]
  rfl

/-- A scenario of which all times are moved by `k` seconds, a multiple of the granularity, reports
of its first run what it did before, with all times moved, if the clock shows the ends of the holds
both before and after. A run whose window reaches the last instant has no end, and no report; the
holds leave no room for such a window. -/
theorem report_shift : ∃ s', (sc.shift k).build.result = .ok s' ∧
    (sc.window.stop < .never → (sc.shift k).window.stop < .never →
      (s'.run.ending = .finished ↔ s.run.ending = .finished)) ∧
    (s.run.ending = .finished → s'.run.ending = .finished →
      s'.report s'.run = (s.report s.run).shift k) := by
  obtain ⟨hflaw, -, hw, -, htrace, -⟩ := build_ok hb
  obtain ⟨hwindow, -⟩ := flaw?_eq_none hflaw
  obtain ⟨s', hb', hw', -, htrace', -⟩ := build_shift hb ht
  refine ⟨s', hb', fun hstop hstop' => ?_, fun hf hf' => ?_⟩
  · rw [run_shift hb hk ht hroom hb' hstop hstop', Run.shift]
    cases s.run.ending <;> simp [Ending.shift]
  · have hstop := s.passes_run.stop_lt_never hf
    have hstop' := s'.passes_run.stop_lt_never hf'
    have hnever : ∀ st ∈ s.run.steps, st.now ≠ .never := fun st hst =>
      ((s.passes_run.now_le_stop (hw ▸ hwindow) st hst).trans_lt hstop).ne
    rw [hw] at hstop
    rw [hw', hw] at hstop'
    rw [run_shift hb hk ht hroom hb' hstop hstop']
    exact Simulation.report_run_shift hw' htrace htrace' hnever

end Scenario

/-- A heater that is on for three seconds, in a simulation that wakes every two. -/
def thriftyHeating : Scenario :=
  { heating with options := { granularity := 2 } }

/-- Times before the origin are rounded up, too. -/
theorem report_shift_thriftyHeating : ∃ s s', thriftyHeating.build.result = .ok s ∧
    (thriftyHeating.shift (-100)).build.result = .ok s' ∧
    s.run.ending = .finished ∧ s'.run.ending = .finished ∧
    (s.report s.run).transitions = [⟨.clamp 4, "room", "heater", "ON"⟩] ∧
    s'.report s'.run = (s.report s.run).shift (-100) := by
  have h : thriftyHeating.buildsTo (fun s => s.run.ending.isFinished &&
      decide ((s.report s.run).transitions = [⟨.clamp 4, "room", "heater", "ON"⟩] ∧
        ∀ st ∈ s.registry.stations, st.machine.HasRoom thriftyHeating.window.stop ∧
          st.machine.HasRoom (thriftyHeating.window.stop.moved (-100)))) = true := by
    decide +kernel
  obtain ⟨s, hs, htest⟩ := Scenario.of_buildsTo h
  rw [Bool.and_eq_true, Ending.isFinished_iff, decide_eq_true_iff] at htest
  obtain ⟨hf, htransitions, hroom⟩ := htest
  obtain ⟨s', hs', hfinished, hreport⟩ :=
    Scenario.report_shift (k := -100) hs (by decide) (by decide +kernel) hroom
  have hf' := (hfinished (by decide) (by decide)).2 hf
  exact ⟨s, s', hs, hs', hf, hf', htransitions, hreport hf hf'⟩

end Dwell
