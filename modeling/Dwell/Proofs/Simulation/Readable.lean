import Dwell.Proofs.Machine.Offering
import Dwell.Proofs.Simulation.Runs

/-!
# What the machines of a simulation read

The hosts of a scenario have no sources (`sources_host`), and the machines that are built on them
are made by operations on new machines (`commission_reachable`). So every test of a simulation's
machine is decided on its host, and as neither events nor ticks change what properties hosts have or
which rules machines have, it stays so through all runs (`Scenario.Yields.decides_throughout`).
-/

namespace Dwell

section Sources

theorem sources_declare (h : Host) (name : String) (d : Declaration) :
    (h.declare name d).sources = h.sources := by
  have hfill : ∀ values : List Float, (h.withArray name values).sources = h.sources := fun values =>
    congrArg (·.sources) (Host.fixed_fill name values.zipIdx h)
  cases d with
  | enumeration | text => rfl
  | number value => exact hfill [value]
  | numbers values => exact hfill values

theorem sources_host (spec : HostSpec) : spec.host.sources = [] :=
  HostSpec.host_induction (P := fun h => h.sources = []) rfl fun h hh p _ =>
    (sources_declare h p.1 p.2).trans hh

end Sources

/-- Operations lead from a new machine to each machine of a simulation. -/
theorem commission_reachable {options : Options} {now : Instant} {host host' : Host} {m : Machine}
    {spec : String} (h : (commission options now host spec).result = .ok (m, host')) :
    m.Reachable host.fixed := by
  obtain ⟨hw, -⟩ := of_commission h
  have hnew : Machine.Reachable { options } host := ⟨options, host, [], rfl⟩
  generalize he : Machine.configure { options } host spec now = e at hw
  have hconfigured : e.machine.Reachable e.host := he ▸ hnew.perform (.configure spec now)
  -- Watching a state is an operation too, and writes nothing to the host.
  have hset : ∀ (n : Machine) state, n.Reachable e.host →
      (n.setHook e.host state .watching).machine.Reachable e.host := by
    intro n state hn
    have hs : (n.setHook e.host state .watching).machine.Reachable
        (n.setHook e.host state .watching).host := hn.perform (.setHook state .watching)
    rwa [Machine.host_setHook] at hs
  have hwatched := Machine.watch_induction (I := fun n => n.Reachable e.host) hset _ hconfigured hw
  exact hwatched.of_fixed (he ▸ (Machine.fixed_configure { options } host now spec).symm)

namespace Registry

/-- Every machine stands on a host, and every test of it is decided there. -/
def Decides (r : Registry) : Prop :=
  ∀ st ∈ r.stations, ∃ host, r.hosts[st.host]? = some host ∧ st.machine.Decides host

variable {r r' : Registry}

theorem decides_fixed : r.fixed.Decides ↔ r.Decides := by
  have hprogram (st : Station) : st.fixed.machine.program? = st.machine.program? := rfl
  have hreadings (host : Host) : host.fixed.fixed = host.fixed := rfl
  constructor
  · intro h st hst
    obtain ⟨_, hfixed, hd⟩ := h st.fixed (List.mem_map_of_mem hst)
    obtain ⟨host, hhost, rfl⟩ := Option.map_eq_some_iff.1 ((List.getElem?_map ..).symm.trans hfixed)
    exact ⟨host, hhost,
      (Machine.decides_of_program? (hprogram st).symm hd).of_fixed (hreadings host).symm⟩
  · intro h _ hfixed
    obtain ⟨st, hst, rfl⟩ := List.mem_map.1 hfixed
    obtain ⟨host, hhost, hd⟩ := h st hst
    refine ⟨host.fixed, (List.getElem?_map ..).trans ?_,
      (Machine.decides_of_program? (hprogram st) hd).of_fixed (hreadings host)⟩
    exact congrArg (Option.map (·.fixed)) hhost

theorem Decides.of_fixed (hf : r'.fixed = r.fixed) (h : r.Decides) : r'.Decides :=
  (eq_of_fixed (f := Decides) (fun _ => propext decides_fixed) hf).mpr h

/-- Each machine is ticked on a host where its tests are true or false. -/
theorem Decides.tickAll (h : r.Decides) (now : Instant) (i : Nat) (st : Station)
    (hst : r.stations[i]? = some st) : ∃ host, (r.tickAll now).2.1.stations[i]?
        = some { st with machine := (st.machine.tick host now).machine } ∧
      ∀ t, st.machine.HasTest t → ∀ frame,
        t.outcome host frame = .isTrue ∨ t.outcome host frame = .isFalse := by
  have hfits : r.Fits := fun st hst => by
    obtain ⟨host, hhost, -⟩ := h st hst
    exact (List.getElem?_eq_some_iff.1 hhost).1
  obtain ⟨host', hhost', hd⟩ := h st (List.mem_of_getElem? hst)
  obtain ⟨host, hf, hticked, -⟩ := tickAll_station hfits hst now
  rw [hhost', Option.map_some, Option.some.injEq] at hf
  exact ⟨host, hticked, fun t ht frame => (hd t ht).outcome host hf.symm frame⟩

/-- What is examined when all machines are ticked is decided. -/
theorem Decides.isDecided (h : r.Decides) (now : Instant) : ∀ g ∈ (r.tickAll now).2.2,
    ∀ x, g.entry.examination? = some x → x.2.2.IsDecided := by
  intro g hg x hx
  obtain ⟨st, hst, host, hf, -, hentry⟩ := mem_tickStations now r.stations r.hosts hg
  obtain ⟨host', hhost', hd⟩ := h st hst
  rw [hhost', Option.map_some, Option.some.injEq] at hf
  exact (hd.of_fixed hf.symm).isDecided now .never x (List.mem_filterMap.2 ⟨g.entry, hentry, hx⟩)

end Registry

variable {sc : Scenario} {s : Simulation}

theorem Scenario.decides_build (h : sc.build.result = .ok s) : s.registry.Decides := by
  obtain ⟨-, hr, -⟩ := build_ok h
  obtain ⟨hhosts, hall⟩ := assemble_all (P := Machine.Reachable) commission_reachable hr
  intro st hst
  obtain ⟨k, spec, hk, hspec, hreachable⟩ := hall st hst
  have hhost : (s.registry.hosts[st.host]?).map (·.fixed) = some spec.host.fixed := by
    rw [← List.getElem?_map, hhosts, List.getElem?_map, hk, Nat.zero_add, hspec]
    rfl
  obtain ⟨host, hhost, hf⟩ := Option.map_eq_some_iff.1 hhost
  have hd := hreachable.decides (sources_host spec)
  exact ⟨host, hhost, hd.of_fixed (show host.fixed = spec.host.fixed.fixed from hf)⟩

/-- In all runs of a scenario's simulations every test of every machine is decided, before and after
the events of each step as well as after its ticks. So each machine is ticked where its tests are
true or false, and candidates are judged by that. -/
theorem Scenario.Yields.decides_throughout (h : sc.Yields s) :
    s.registry.Decides ∧ s.run.registry.Decides ∧
      ∀ before st after, s.run.steps = before ++ st :: after →
        ∃ r between r' : Registry, s.opening.Replays before r ∧
          r.applyEvents st.applied = (between, st.applied, none) ∧
          between.tickAll st.now = (st.wake, r', st.seen) ∧
          r.Decides ∧ between.Decides ∧ r'.Decides ∧
          (∀ (i : Nat) (ticked : Station), between.stations[i]? = some ticked → ∃ host,
            r'.stations[i]? = some
                { ticked with machine := (ticked.machine.tick host st.now).machine } ∧
            ∀ t, ticked.machine.HasTest t → ∀ frame,
              t.outcome host frame = .isTrue ∨ t.outcome host frame = .isFalse) ∧
          ∀ g ∈ st.seen, ∀ x, g.entry.examination? = some x → x.2.2.IsDecided := by
  obtain ⟨-, -, -, s₀, hs₀, hf⟩ := h.fixed
  have hs : s.registry.Decides := (decides_build hs₀).of_fixed hf
  have hopening : s.opening.Decides := hs.of_fixed (Registry.fixed_initAll ..)
  refine ⟨hs, hopening.of_fixed s.passes_run.fixed, fun before st after hsteps => ?_⟩
  obtain ⟨r, r', hreplays, between, happly, htick⟩ := s.passes_run.reaches hsteps
  have hr : r.Decides := hopening.of_fixed hreplays.fixed
  have hevents := r.fixed_applyEvents st.applied
  rw [happly] at hevents
  have hbetween : between.Decides := hr.of_fixed hevents
  have hfixed := between.fixed_tickAll st.now
  have hticked := hbetween.tickAll st.now
  have hseen := hbetween.isDecided st.now
  simp only [htick] at hfixed hticked hseen
  exact ⟨r, between, r', hreplays, happly, htick, hr, hbetween, hbetween.of_fixed hfixed, hticked,
    hseen⟩

/-- A fan that goes on when it is warmer than the limit for that, with an element for each state. -/
def cooling : Scenario where
  window := ⟨.clamp 0, .clamp 10, 4⟩
  hosts := [{
    name := "room"
    properties := [("fan", .enumeration [⟨"OFF", 0⟩, ⟨"ON", 1⟩] 0),
      ("limits", .numbers [18.0, 25.0]), ("temp", .number 20.0)]
    machines := ["state:fan;rule:OFF->ON=temp>limits#ON"] }]
  events := [{ time := .clamp 3, host := "room", property := "temp", value := 28.0 }]

/-- The fan's test is false at first, true after the event, and not evaluated when the fan is on. -/
theorem decides_throughout_cooling : ∃ s, cooling.build.result = .ok s ∧ s.registry.Decides ∧
    s.run.steps.map (fun st => st.seen.filterMap (·.entry.examination?))
      = [[(0, 0, .stopped 0 .isFalse)], [(0, 0, .satisfied)], []] ∧
    ∀ st ∈ s.run.steps, ∀ g ∈ st.seen, ∀ x, g.entry.examination? = some x → x.2.2.IsDecided := by
  have h : cooling.buildsTo (fun s =>
      s.run.steps.map (fun st => st.seen.filterMap (·.entry.examination?))
        = [[(0, 0, .stopped 0 .isFalse)], [(0, 0, .satisfied)], []]) = true := by decide +kernel
  obtain ⟨s, hs, hsteps⟩ := Scenario.of_buildsTo h
  obtain ⟨hbuilt, -, hrun⟩ := Scenario.Yields.decides_throughout (.built hs)
  refine ⟨s, hs, hbuilt, of_decide_eq_true hsteps, fun st hst => ?_⟩
  obtain ⟨before, after, hsplit⟩ := List.append_of_mem hst
  obtain ⟨_, _, _, -, -, -, -, -, -, -, hseen⟩ := hrun before st after hsplit
  exact hseen

end Dwell
