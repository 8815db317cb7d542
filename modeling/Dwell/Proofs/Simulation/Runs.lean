import Dwell.Proofs.Simulation.Building
import Dwell.Proofs.Simulation.Schedule
import Dwell.Simulation.Report

/-!
# The runs of a scenario

A scenario yields the simulation that is built from it, and what its runs make of it
(`Scenario.Yields`). The window, the events and the fixed part of the registry stay
(`Scenario.Yields.fixed`), so each run that finishes keeps to the schedule of the scenario
(`Scenario.Schedules`).
-/

namespace Dwell

/-- Simulations of a scenario: the one that is built, and what runs leave. -/
inductive Scenario.Yields (sc : Scenario) : Simulation → Prop
  | built {s} : sc.build.result = .ok s → Yields sc s
  | again {s} : Yields sc s → Yields sc (s.after s.run)

namespace Simulation

/-- The registry that a run starts from. -/
def opening (s : Simulation) : Registry :=
  s.registry.initAll s.window.start

theorem passes_run (s : Simulation) :
    Passes s.window s.opening s.events s.window.start s.run :=
  passes_stepFrom ..

theorem Passes.fixed {w : Window} {r : Registry} {pending : List Event} {now : Instant} {run : Run}
    (h : Passes w r pending now run) : run.registry.fixed = r.fixed := by
  induction h with
  | @failed r pending now _ _ _ ha =>
    have hf := Registry.fixed_applyEvents (due now pending) r
    rwa [ha] at hf
  | finished _ ht _ | stuck _ ht _ _ => exact ht.fixed
  | passed _ ht _ _ _ _ ih => exact ih.trans ht.fixed

end Simulation

theorem filter_sortEvents (events : List Event) (t : Instant) :
    (sortEvents events).filter (·.time = t) = events.filter (·.time = t) := by
  have hsorted : (events.filter (·.time = t)).Pairwise
      fun a b => decide (a.time ≤ b.time) = true := by
    refine List.pairwise_of_forall_mem_list fun a ha b hb => ?_
    simp only [List.mem_filter, decide_eq_true_eq] at ha hb ⊢
    rw [ha.2, hb.2]
  have hsub : (events.filter (·.time = t)).Sublist (sortEvents events) :=
    List.sublist_mergeSort (by simpa using fun _ _ _ => le_trans)
      (by simpa using fun a b : Event => le_total a.time b.time) hsorted List.filter_sublist
  have hfilter := hsub.filter (·.time = t)
  rw [List.filter_filter] at hfilter
  simp only [Bool.and_self] at hfilter
  exact (hfilter.eq_of_length ((sortEvents_perm events).filter _).length_eq.symm).symm

namespace Scenario.Yields

variable {sc : Scenario} {s : Simulation}

theorem fixed (h : sc.Yields s) : sc.flaw? = none ∧ s.window = sc.window ∧
    s.events = sortEvents sc.events ∧ ∃ s₀, sc.build.result = .ok s₀ ∧
      s.registry.fixed = s₀.registry.fixed := by
  induction h with
  | @built s h =>
    obtain ⟨hflaw, -, hw, he, -, -⟩ := build_ok h
    exact ⟨hflaw, hw, he, s, h, rfl⟩
  | @again s _ ih =>
    obtain ⟨hflaw, hw, he, s₀, hs₀, hf⟩ := ih
    refine ⟨hflaw, hw, he, s₀, hs₀, ?_⟩
    exact (s.passes_run.fixed.trans (Registry.fixed_initAll ..)).trans hf

theorem fits (h : sc.Yields s) : s.opening.Fits := by
  obtain ⟨-, -, -, s₀, hs₀, hf⟩ := h.fixed
  obtain ⟨-, hr, -⟩ := build_ok hs₀
  obtain ⟨hhosts, hall⟩ := assemble_ok hr
  refine Registry.fits_of_fixed ((Registry.fixed_initAll ..).trans hf) fun st hst => ?_
  obtain ⟨k, spec, hk, hspec, -⟩ := hall st hst
  have hlen := congrArg List.length hhosts
  simp only [List.length_map] at hlen
  have := (List.getElem?_eq_some_iff.1 hspec).1
  omega

theorem fits_registry (h : sc.Yields s) : s.registry.Fits :=
  Registry.fits_of_fixed (Registry.fixed_initAll ..).symm h.fits

theorem options (h : sc.Yields s) :
    ∀ st ∈ s.opening.stations, st.machine.options = sc.options := by
  obtain ⟨-, -, -, s₀, hs₀, hf⟩ := h.fixed
  obtain ⟨-, hr, -⟩ := build_ok hs₀
  refine @Registry.forall_stations_of_fixed s₀.registry s.opening (·.machine.options = sc.options)
    ((Registry.fixed_initAll ..).trans hf) fun st hst => ?_
  obtain ⟨_, _, -, -, hc⟩ := (assemble_ok hr).2 st hst
  exact hc.options

theorem prompt (h : sc.Yields s) (hg : sc.options.granularity = 1) :
    Simulation.Prompt s.opening where
  fits := h.fits
  granularity st hst := by rw [h.options st hst, hg]
  idle st hst _ := Registry.holdUntil_initAll h.fits_registry st hst

end Scenario.Yields

/-- A run of a scenario's simulation goes through the scenario's window from its start, applies its
events at their times, and misses no wake time. -/
structure Scenario.Schedules (sc : Scenario) (s : Simulation) (run : Run) : Prop where
  start : run.times.head? = some sc.window.start
  increasing : run.times.Pairwise (· < ·)
  within : ∀ t ∈ run.times, t ≤ sc.window.stop
  gaps : run.times.IsChain fun t u => u.seconds ≤ t.seconds + sc.window.maxStep
  count : (s.report run).steps = run.times.length
  /-- Each step applies its events and ticks all machines, from where the one before left them. -/
  replays : s.opening.Replays run.steps run.registry
  applied : (run.steps.flatMap (·.applied)).Perm (sc.events.filter (·.time ≤ sc.window.stop))
  ordered : (run.steps.flatMap (·.applied)).Pairwise (·.time ≤ ·.time)
  /-- Events of the same time are applied in the order of the scenario. -/
  stable : ∀ t ≤ sc.window.stop,
    (run.steps.flatMap (·.applied)).filter (·.time = t) = sc.events.filter (·.time = t)
  punctual : ∀ st ∈ run.steps, ∀ e ∈ st.applied,
    st.now.seconds = max sc.window.start.seconds e.time.seconds
  /-- The step after one whose wake time lies in the window is not behind it. -/
  wakes : ∀ k st, run.steps[k]? = some st → st.wake ≤ sc.window.stop →
    ∃ st', run.steps[k + 1]? = some st' ∧ st.now < st'.now ∧ st'.now ≤ st.wake
  /-- Dwells that a step leaves end at a step, when wake times are not rounded. -/
  dwells : sc.options.granularity = 1 → ∀ before rest r, run.steps = before ++ rest →
    before ≠ [] → s.opening.Replays before r → ∀ st ∈ r.stations,
    st.machine.holdUntil ≤ sc.window.stop → st.machine.holdUntil ∈ run.times

namespace Scenario.Yields

variable {sc : Scenario} {s : Simulation}

theorem schedules (h : sc.Yields s) (hstop : sc.window.stop < .never)
    (hf : s.run.ending = .finished) : sc.Schedules s s.run := by
  obtain ⟨hflaw, hw, he, -⟩ := h.fixed
  obtain ⟨hwindow, hmax, -⟩ := flaw?_eq_none hflaw
  have hp := s.passes_run
  rw [hw, he] at hp
  have hsorted := pairwise_sortEvents sc.events
  have happlied := hp.applied hf hsorted hwindow
  refine
    { start := hp.head?_times hf
      increasing := List.pairwise_map.2 hp.pairwise_now
      within := List.forall_mem_map.2 (hp.now_le_stop hwindow)
      gaps := ?_
      count := (List.length_map ..).symm
      replays := hp.replays hf
      applied := happlied ▸ (sortEvents_perm sc.events).filter _
      ordered := happlied ▸ hsorted.filter _
      stable := fun t ht => ?_
      punctual := hp.now_of_applied hsorted
      wakes := fun k st hk hwake => ?_
      dwells := fun hgran before rest r hsteps hne hreplays =>
        hp.mem_times_of_holdUntil hf hstop hwindow (h.prompt hgran) hsteps hne hreplays }
  · refine (List.isChain_map _).2 (hp.isChain fun _ _ hn => ?_)
    rw [hn]
    exact le_trans (Instant.le_iff.1 Simulation.next_le_later) (Instant.seconds_later_le hmax.le)
  · rw [happlied, List.filter_filter, ← filter_sortEvents]
    refine List.filter_congr fun e _ => ?_
    by_cases htime : e.time = t
    · simp [htime, ht]
    · simp [htime]
  · have hlt : st.now < .never :=
      (hp.now_le_stop hwindow st (List.mem_of_getElem? hk)).trans_lt hstop
    obtain ⟨hlen, rfl⟩ := List.getElem?_eq_some_iff.1 hk
    by_cases hlast : k + 1 < s.run.steps.length
    · refine ⟨s.run.steps[k + 1], List.getElem?_eq_getElem hlast, ?_⟩
      have hchain := hp.isChain (R := fun st st' =>
        st.now < .never → st.now < st'.now ∧ st'.now ≤ st.wake) fun ht hnow hn hlt =>
          ⟨hnow, hn ▸ Simulation.next_le_wake_of_takes ht hlt ..⟩
      exact hchain.getElem k hlast hlt
    · have hmem : s.run.steps[k] ∈ s.run.steps.getLast? := by
        rw [List.getLast?_eq_getElem?, show s.run.steps.length - 1 = k by omega]
        exact hk
      obtain ⟨_, _, pending, ht, hbehind⟩ := hp.stop_lt_next hf _ hmem
      have hnext := Simulation.next_le_wake_of_takes ht hlt sc.window pending
      exact absurd (hbehind.trans_le (hnext.trans hwake)) (lt_irrefl _)

end Scenario.Yields

/-- Whether the scenario's simulation can be built and passes a test. -/
def Scenario.buildsTo (sc : Scenario) (test : Simulation → Bool) : Bool :=
  match sc.build.result with
  | .ok s => test s
  | .error _ => false

theorem Scenario.of_buildsTo {sc : Scenario} {test : Simulation → Bool}
    (h : sc.buildsTo test = true) : ∃ s, sc.build.result = .ok s ∧ test s = true := by
  unfold buildsTo at h
  split at h
  · exact ⟨_, ‹_›, h⟩
  · cases h

def Ending.isFinished : Ending → Bool
  | .finished => true
  | _ => false

theorem Ending.isFinished_iff {e : Ending} : e.isFinished = true ↔ e = .finished := by
  cases e <;> simp [isFinished]

/-- A heater that is due to go on after two seconds, stays on for three, and is switched off from
outside as that ends. -/
def heating : Scenario where
  window := ⟨.clamp 0, .clamp 10, 4⟩
  hosts := [{
    name := "room"
    properties := [("heater", .enumeration [⟨"OFF", 0⟩, ⟨"ON", 1⟩] 0)]
    machines := ["state:heater;rule:OFF->ON=$timer>=2;hold:ON=3"] }]
  events := [{ time := .clamp 7, host := "room", property := "heater", value := 0.0 }]

theorem schedules_heating : ∃ s, heating.build.result = .ok s ∧ s.run.ending = .finished ∧
    heating.Schedules s s.run := by
  have h : heating.buildsTo (·.run.ending.isFinished) = true := by decide +kernel
  obtain ⟨s, hs, hf⟩ := Scenario.of_buildsTo h
  rw [Ending.isFinished_iff] at hf
  exact ⟨s, hs, hf, Scenario.Yields.schedules (.built hs) (by decide) hf⟩

end Dwell
