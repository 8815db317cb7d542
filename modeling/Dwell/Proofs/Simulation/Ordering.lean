import Dwell.Proofs.Simulation.Arranging

/-!
# The order of hosts

Simulations whose scenarios differ in the order of hosts have the same crews
(`Simulation.alike_build`), so their runs take the same steps, in which the same is observed of each
host (`Registry.Alike.stepFrom`). What differs is the order in which objects are told of, which is
that of the hosts (`Scenario.reorders_of_perm`).
-/

namespace Dwell

/-- Steps at the same time, with the same events and wake time, in which the same was observed of
each host. -/
structure Step.Alike (r r' : Registry) (st st' : Step) : Prop where
  now : st'.now = st.now
  applied : st'.applied = st.applied
  wake : st'.wake = st.wake
  journals : ∀ name, r'.journalOf st'.seen name = r.journalOf st.seen name

structure Run.Alike (run run' : Run) : Prop where
  steps : List.Forall₂ (Step.Alike run.registry run'.registry) run.steps run'.steps
  ending : run'.ending = run.ending
  registry : run.registry.Alike run'.registry

namespace Registry.Alike

variable {r r' b : Registry} {now wake : Instant} {seen : List Sighting}

theorem applyEvents_eq (h : r.Alike r') {es : List Event} {x : List Event × Option SimulationFault}
    (ha : r.applyEvents es = (b, x)) : ∃ b', r'.applyEvents es = (b', x) ∧ b.Alike b' := by
  obtain ⟨hsame, halike⟩ := h.applyEvents es
  rw [ha] at hsame halike
  exact ⟨_, Prod.ext rfl hsame, halike⟩

theorem tickAll_eq (h : r.Alike r') (ht : r.tickAll now = (wake, b, seen)) :
    ∃ b' seen', r'.tickAll now = (wake, b', seen') ∧ b.Alike b' ∧
      ∀ name, b'.journalOf seen' name = b.journalOf seen name := by
  have hwake := h.wake_tickAll now
  have halike := h.tickAll now
  have hj := h.journalOf_tickAll now
  have hf := r.fixed_tickAll now
  rw [ht] at hwake halike hj hf
  refine ⟨(r'.tickAll now).2.1, (r'.tickAll now).2.2, Prod.ext hwake rfl, halike, fun name => ?_⟩
  rw [journalOf_of_fixed (r'.fixed_tickAll now), hj, journalOf_of_fixed hf]

/-- A step is taken by registries that are alike, and leaves registries that are. -/
theorem takes (h : r.Alike r') {st : Step} (ht : r.Takes st b) :
    ∃ seen' b', r'.Takes { st with seen := seen' } b' ∧ b.Alike b' ∧
      ∀ name, b'.journalOf seen' name = b.journalOf st.seen name := by
  obtain ⟨between, ha, ht⟩ := ht
  obtain ⟨between', ha', hbetween⟩ := h.applyEvents_eq ha
  obtain ⟨b', seen', ht', hb, hj⟩ := hbetween.tickAll_eq ht
  exact ⟨seen', b', ⟨between', ha', ht'⟩, hb, hj⟩

/-- Registries that are alike go through the same passes. -/
theorem passes {w : Window} {pending : List Event} {run : Run}
    (hpasses : Simulation.Passes w r pending now run) :
    ∀ {r'}, r.Alike r' → ∃ run', Simulation.Passes w r' pending now run' ∧ run.Alike run' := by
  induction hpasses with
  | failed ha =>
    intro r' h
    obtain ⟨b', ha', hb⟩ := h.applyEvents_eq ha
    exact ⟨_, .failed ha', .nil, rfl, hb⟩
  | finished he ht hstop =>
    intro r' h
    obtain ⟨seen', b', ht', hb, hj⟩ := h.takes ht
    have hpasses' := Simulation.Passes.finished (by exact he) ht' hstop
    exact ⟨_, hpasses', .cons ⟨rfl, rfl, rfl, hj⟩ .nil, rfl, hb⟩
  | stuck he ht hle hstuck =>
    intro r' h
    obtain ⟨seen', b', ht', hb, hj⟩ := h.takes ht
    have hpasses' := Simulation.Passes.stuck (by exact he) ht' hle hstuck
    exact ⟨_, hpasses', .cons ⟨rfl, rfl, rfl, hj⟩ .nil, rfl, hb⟩
  | passed he ht hnext hle hnow hrest ih =>
    intro r' h
    obtain ⟨seen', b', ht', hb, hj⟩ := h.takes ht
    obtain ⟨run', hrest', hsteps, hending, hregistry⟩ := ih hb
    have hpasses' := Simulation.Passes.passed (by exact he) ht' hnext hle hnow hrest'
    refine ⟨_, hpasses', .cons ⟨rfl, rfl, rfl, fun name => ?_⟩ hsteps, hending, hregistry⟩
    dsimp only
    rw [journalOf_of_fixed hrest'.fixed, journalOf_of_fixed hrest.fixed, hj]

/-- Runs from registries that are alike take the same steps, and leave registries that are. -/
theorem stepFrom (h : r.Alike r') (w : Window) (pending : List Event) (now : Instant) :
    (Simulation.stepFrom w r pending now).Alike (Simulation.stepFrom w r' pending now) := by
  obtain ⟨run', hpasses, hrun⟩ := h.passes (Simulation.passes_stepFrom w r pending now)
  rwa [hpasses.eq_stepFrom] at hrun

end Registry.Alike

namespace Simulation

/-- Simulations that differ in the order of their hosts alone. -/
structure Alike (s s' : Simulation) : Prop where
  window : s'.window = s.window
  events : s'.events = s.events
  registry : s.registry.Alike s'.registry
  grouped : s.registry.Grouped
  grouped' : s'.registry.Grouped
  trace : ∀ object, s'.trace.filter (·.object = object) = s.trace.filter (·.object = object)

/-- The next run of a simulation is that of another one up to the order of objects, which is the
given order within each step and among the summaries. -/
structure Reorders (objects : List String) (s s' : Simulation) : Prop where
  times : s'.run.times = s.run.times
  ending : s'.run.ending = s.run.ending
  transitions : ∀ object, (s'.report s'.run).transitions.filter (·.object = object)
    = (s.report s.run).transitions.filter (·.object = object)
  machines : ∀ object, (s'.report s'.run).machines.filter (·.object = object)
    = (s.report s.run).machines.filter (·.object = object)
  entries : s'.run.steps.map (·.stateEntries s'.run.registry) = s.run.steps.map fun st =>
    objects.flatMap fun object =>
      (st.stateEntries s.run.registry).filter (·.object = object)
  summaries : (s'.report s'.run).machines = objects.flatMap fun object =>
    (s.report s.run).machines.filter (·.object = object)

section Runs

variable {s s' : Simulation}

theorem Alike.run (h : s.Alike s') : s.run.Alike s'.run := by
  have hopen : s.opening.Alike s'.opening := by
    rw [opening, opening, h.window]
    exact h.registry.initAll _
  rw [Simulation.run, Simulation.run, h.window, h.events]
  rw [opening, opening, h.window] at hopen
  exact hopen.stepFrom ..

theorem fixed_run (s : Simulation) : s.run.registry.fixed = s.registry.fixed :=
  s.passes_run.fixed.trans (Registry.fixed_initAll ..)

/-- What a run observes is in the order of the hosts. -/
theorem grouped_run (hr : s.registry.Crewed) (hg : s.registry.Grouped) :
    ∀ st ∈ s.run.steps, st.seen.Pairwise (·.host ≤ ·.host) ∧
      ∀ x ∈ st.seen, x.host < s.run.registry.hosts.length := by
  intro st hst
  obtain ⟨q, q', hq, hf⟩ := s.passes_run.takes st hst
  have hf' : q.fixed = s.registry.fixed := hf.trans (Registry.fixed_initAll ..)
  have hlen : q.hosts.length = s.run.registry.hosts.length := by
    simpa [Registry.fixed] using congrArg (·.hosts.length) (hf'.trans s.fixed_run.symm)
  rw [← hlen]
  exact hq.grouped (Registry.grouped_of_fixed hf' hg) (Registry.fits_of_fixed hf' hr.fits)

theorem crewed_run (hr : s.registry.Crewed) : s.run.registry.Crewed :=
  Registry.crewed_of_fixed s.fixed_run hr

theorem map_eq_of_forall₂ {α β γ : Type} {R : α → β → Prop} {f : α → γ} {g : β → γ} {as : List α}
    {bs : List β} (h : List.Forall₂ R as bs)
    (hfg : ∀ a ∈ as, ∀ b ∈ bs, R a b → g b = f a) : bs.map g = as.map f := by
  induction h with
  | nil => rfl
  | @cons a b as bs hab _ ih =>
    rw [List.map_cons, List.map_cons, hfg a (by simp) b (by simp) hab,
      ih fun a ha b hb => hfg a (by simp [ha]) b (by simp [hb])]

theorem Alike.filter_stateEntries (h : s.Alike s') (object : String) :
    ∀ st ∈ s.run.steps, ∀ st' ∈ s'.run.steps,
      Step.Alike s.run.registry s'.run.registry st st' →
      (st'.stateEntries s'.run.registry).filter (·.object = object)
        = (st.stateEntries s.run.registry).filter (·.object = object) := by
  intro st hst st' hst' halike
  rw [Registry.filter_stateEntries (crewed_run h.registry.crewed)
      (grouped_run h.registry.crewed h.grouped st hst).2,
    Registry.filter_stateEntries (crewed_run h.registry.crewed')
      (grouped_run h.registry.crewed' h.grouped' st' hst').2, halike.now, halike.journals]

theorem Alike.filter_transitions (h : s.Alike s') (object : String) :
    (s'.report s'.run).transitions.filter (·.object = object)
      = (s.report s.run).transitions.filter (·.object = object) := by
  have hsteps := map_eq_of_forall₂ h.run.steps (h.filter_stateEntries object)
  simp only [report, Run.stateEntries, List.filter_append, h.trace, List.filter_flatMap]
  rw [List.flatMap_def, List.flatMap_def, hsteps]

theorem Alike.reorders (h : s.Alike s') :
    Reorders (s'.registry.hosts.map (·.name)) s s' := by
  have hrun := h.run
  have hr' := crewed_run h.registry.crewed'
  have hnames : s'.run.registry.hosts.map (·.name) = s'.registry.hosts.map (·.name) :=
    Registry.names_of_fixed s'.fixed_run
  have hmachines : ∀ object, (s'.report s'.run).machines.filter (·.object = object)
      = (s.report s.run).machines.filter (·.object = object) := by
    intro object
    simp only [report]
    rw [Registry.filter_summaries hrun.registry.crewed,
      Registry.filter_summaries hrun.registry.crewed', hrun.registry.crews]
  refine ⟨map_eq_of_forall₂ hrun.steps fun _ _ _ _ h => h.now, hrun.ending, h.filter_transitions,
    hmachines, map_eq_of_forall₂ hrun.steps fun st hst st' hst' halike => ?_, ?_⟩
  · obtain ⟨hs, hlt⟩ := grouped_run h.registry.crewed' h.grouped' st' hst'
    rw [Registry.arranged_stateEntries hr' hs hlt, hnames]
    exact List.flatMap_congr fun object _ => h.filter_stateEntries object st hst st' hst' halike
  · have hg : s'.run.registry.Grouped := Registry.grouped_of_fixed s'.fixed_run h.grouped'
    simp only [← hmachines]
    rw [← hnames]
    exact Registry.arranged_summaries hr' hg

theorem Alike.after (h : s.Alike s') : (s.after s.run).Alike (s'.after s'.run) where
  window := h.window
  events := h.events
  registry := h.run.registry
  grouped := Registry.grouped_of_fixed s.fixed_run h.grouped
  grouped' := Registry.grouped_of_fixed s'.fixed_run h.grouped'
  trace := h.filter_transitions

end Runs

end Simulation

section Building

variable {options : Options} {now : Instant}

theorem Host.name_declare (h : Host) (name : String) (d : Declaration) :
    (h.declare name d).name = h.name := by
  have hfill : ∀ values : List Float, (h.withArray name values).name = h.name := fun values =>
    congrArg (·.name) (Host.fixed_fill name values.zipIdx h)
  cases d with
  | enumeration | text => rfl
  | number value => exact hfill [value]
  | numbers values => exact hfill values

theorem HostSpec.name_host (spec : HostSpec) : spec.host.name = spec.name :=
  host_induction (P := fun h => h.name = spec.name) rfl fun h hh p _ =>
    (h.name_declare p.1 p.2).trans hh

/-- The crew of a host that is equipped with machines. -/
def Crew.equip (options : Options) (now : Instant) :
    Host → List String → Except SimulationFault Crew
  | host, [] => .ok ⟨host, []⟩
  | host, spec :: specs => do
    let (m, host) ← (commission options now host spec).result
    let c ← Crew.equip options now host specs
    return ⟨c.host, m :: c.machines⟩

theorem equip_result (k : Nat) : ∀ (specs : List String) (host : Host),
    (equip options now k host specs).result
      = (Crew.equip options now host specs).map fun c => (c.host, c.machines.map (Station.mk k))
  | [], host => rfl
  | spec :: specs, host => by
    simp only [equip, Logged.result_bind, Crew.equip]
    rcases (commission options now host spec).result with fault | ⟨m, host₁⟩
    · rfl
    · change Except.bind (equip options now k host₁ specs).result _ = _
      rw [equip_result k specs host₁]
      change _ = Except.map _ ((Crew.equip options now host₁ specs).bind _)
      cases Crew.equip options now host₁ specs <;> rfl

theorem machinesAt_append (k : Nat) (as bs : List Station) :
    machinesAt k (as ++ bs) = machinesAt k as ++ machinesAt k bs := by
  simp [machinesAt]

theorem machinesAt_mk (k j : Nat) (ms : List Machine) :
    machinesAt k (ms.map (Station.mk j)) = if j = k then ms else [] := by
  by_cases h : j = k <;> simp [machinesAt, List.filter_map, Function.comp_def, h]

/-- A registry that is assembled has a crew for each host, equipped, and the machines are in the
order of the hosts. -/
theorem assemble_crews : ∀ {specs : List HostSpec} {position : Nat} {r : Registry},
    (assemble options now position specs).result = .ok r →
    r.stations.Pairwise (·.host ≤ ·.host) ∧ (∀ s ∈ r.stations, position ≤ s.host) ∧
      ∀ i spec, specs[i]? = some spec → ∃ c,
        Crew.equip options now spec.host spec.machines = .ok c ∧ r.hosts[i]? = some c.host ∧
          machinesAt (position + i) r.stations = c.machines
  | [], position, r, h => by
    cases h
    simp
  | spec :: specs, position, r, h => by
    simp only [assemble, Logged.result_bind] at h
    obtain ⟨⟨host, stations⟩, hm, h⟩ := bind_eq_ok h
    obtain ⟨r', hr', h⟩ := bind_eq_ok h
    cases h
    rw [equip_result] at hm
    rcases hc : Crew.equip options now spec.host spec.machines with fault | c
    · rw [hc] at hm
      cases hm
    rw [hc] at hm
    cases hm
    obtain ⟨hp, hle, hcrews⟩ := assemble_crews hr'
    have hown : ∀ s ∈ c.machines.map (Station.mk position), s.host = position := by
      intro s hs
      obtain ⟨_, -, rfl⟩ := List.mem_map.1 hs
      rfl
    refine ⟨List.pairwise_append.2 ⟨?_, hp, fun s hs t ht => ?_⟩, fun s hs => ?_,
      fun i spec' hspec => ?_⟩
    · exact List.pairwise_of_forall_mem_list fun s hs t ht => by rw [hown s hs, hown t ht]
    · have := hle t ht
      rw [hown s hs]
      omega
    · rcases List.mem_append.1 hs with hs | hs
      · exact (hown s hs).ge
      · have := hle s hs
        omega
    · rw [machinesAt_append, machinesAt_mk]
      cases i with
      | zero =>
        cases hspec
        refine ⟨c, hc, rfl, ?_⟩
        -- The machines of the hosts to come stand further on.
        have hnone : machinesAt position r'.stations = [] := by
          refine List.map_eq_nil_iff.2 (List.filter_eq_nil_iff.2 fun s hs h => ?_)
          have := hle s hs
          rw [of_decide_eq_true h] at this
          omega
        simp [hnone]
      | succ i =>
        obtain ⟨c', hc', hhost, hmachines⟩ := hcrews i spec' hspec
        refine ⟨c', hc', hhost, ?_⟩
        rw [if_neg (by omega), List.nil_append, ← hmachines]
        congr 1
        omega

variable {sc : Scenario} {s : Simulation}

theorem names_build (hb : sc.build.result = .ok s) :
    s.registry.hosts.map (·.name) = sc.hosts.map (·.name) := by
  have hfixed := (assemble_ok (Scenario.build_ok hb).2.1).1
  have hnames := congrArg (·.map (·.name)) hfixed
  simp only [List.map_map] at hnames
  refine hnames.trans (List.map_congr_left fun spec _ => ?_)
  exact spec.name_host

theorem crewed_build (hb : sc.build.result = .ok s) : s.registry.Crewed where
  names := names_build hb ▸ (Scenario.flaw?_eq_none (Scenario.build_ok hb).1).2.2.2
  fits := Registry.fits_of_fixed (Registry.fixed_initAll ..).symm (Scenario.Yields.built hb).fits

/-- The crews of a simulation that is built are those of the scenario's hosts, equipped. -/
theorem crew?_build (hb : sc.build.result = .ok s) (name : String) (c : Crew) :
    s.registry.crew? name = some c ↔ ∃ spec ∈ sc.hosts, spec.name = name ∧
      Crew.equip sc.options sc.window.start spec.host spec.machines = .ok c := by
  have hr := crewed_build hb
  have hnames := names_build hb
  obtain ⟨-, -, hcrews⟩ := assemble_crews (Scenario.build_ok hb).2.1
  have hname : ∀ (i : Nat) (spec : HostSpec) (host : Host), sc.hosts[i]? = some spec →
      s.registry.hosts[i]? = some host → host.name = spec.name := by
    intro i spec host hspec hhost
    simpa [hspec, hhost] using congrArg (·[i]?) hnames
  constructor
  · intro hc
    rcases s.registry.crew?_cases name with ⟨-, hnone⟩ | ⟨k, host, hk, hhost, hsome⟩
    · rw [hnone] at hc
      cases hc
    have hlen : s.registry.hosts.length = sc.hosts.length := by
      simpa using congrArg List.length hnames
    have hlt : k < sc.hosts.length := hlen ▸ (List.getElem?_eq_some_iff.1 hhost).1
    have hspec := List.getElem?_eq_getElem hlt
    obtain ⟨c', hc', hhost', hmachines⟩ := hcrews k _ hspec
    obtain rfl : host = c'.host := Option.some.inj (hhost.symm.trans hhost')
    rw [Nat.zero_add] at hmachines
    rw [hsome, hmachines, Option.some.injEq] at hc
    subst hc
    obtain ⟨host, h₁, h₂⟩ := (Registry.hostAt?_eq_some_iff hr).1 hk
    exact ⟨_, List.getElem_mem hlt, (hname k _ host hspec h₁).symm.trans h₂, hc'⟩
  · rintro ⟨spec, hmem, rfl, hc⟩
    obtain ⟨i, hspec⟩ := List.getElem?_of_mem hmem
    obtain ⟨c', hc', hhost, hmachines⟩ := hcrews i spec hspec
    obtain rfl : c = c' := Except.ok.inj (hc.symm.trans hc')
    rw [Nat.zero_add] at hmachines
    rw [Registry.crew?_of_hostAt? ((Registry.hostAt?_eq_some_iff hr).2
      ⟨_, hhost, hname i spec _ hspec hhost⟩) hhost, hmachines]

theorem Simulation.alike_build {hosts : List HostSpec} (hp : hosts.Perm sc.hosts)
    {s' : Simulation} (hb : sc.build.result = .ok s)
    (hb' : (Scenario.build { sc with hosts }).result = .ok s') : s.Alike s' := by
  obtain ⟨-, hr, hw, he, htrace, -⟩ := Scenario.build_ok hb
  obtain ⟨-, hr', hw', he', htrace', -⟩ := Scenario.build_ok hb'
  refine ⟨hw'.trans hw.symm, he'.trans he.symm, ⟨crewed_build hb, crewed_build hb', fun name => ?_⟩,
    (assemble_crews hr).1, (assemble_crews hr').1, fun _ => by rw [htrace, htrace']⟩
  refine Option.ext fun c => ?_
  rw [crew?_build hb, crew?_build hb']
  simp only [hp.mem_iff]

/-- The simulation that a number of runs leave. -/
def Simulation.afterRuns (s : Simulation) : Nat → Simulation
  | 0 => s
  | n + 1 => (s.afterRuns n).after (s.afterRuns n).run

theorem Simulation.Alike.afterRuns {s' : Simulation} (h : s.Alike s') :
    ∀ n, (s.afterRuns n).Alike (s'.afterRuns n)
  | 0 => h
  | n + 1 => (h.afterRuns n).after

theorem Simulation.fixed_afterRuns (s : Simulation) :
    ∀ n, (s.afterRuns n).registry.fixed = s.registry.fixed
  | 0 => rfl
  | n + 1 => (s.afterRuns n).fixed_run.trans (s.fixed_afterRuns n)

/-- The order of a scenario's hosts settles no more than the order in which objects are told of,
in its first run and in every other one. -/
theorem Scenario.reorders_of_perm {hosts : List HostSpec} (hp : hosts.Perm sc.hosts)
    {s' : Simulation} (hb : sc.build.result = .ok s)
    (hb' : (Scenario.build { sc with hosts }).result = .ok s')
    (n : Nat) :
    Simulation.Reorders (hosts.map (·.name)) (s.afterRuns n) (s'.afterRuns n) := by
  have h := ((Simulation.alike_build hp hb hb').afterRuns n).reorders
  rwa [Registry.names_of_fixed (s'.fixed_afterRuns n), names_build hb'] at h

/-- A fan and a heater on hosts of their own, which go on at the same step. -/
def rooms : Scenario where
  window := ⟨.clamp 0, .clamp 10, 4⟩
  hosts := [{
    name := "cellar"
    properties := [("fan", .enumeration [⟨"OFF", 0⟩, ⟨"ON", 1⟩] 0)]
    machines := ["state:fan;rule:OFF->ON=$timer>=4"] }, {
    name := "attic"
    properties := [("heater", .enumeration [⟨"OFF", 0⟩, ⟨"ON", 1⟩] 0)]
    machines := ["state:heater;rule:OFF->ON=$timer>=2;rule:ON->OFF=$timer>=3;hold:ON=3"] }]

theorem reorders_of_perm_rooms : ∃ s s', rooms.build.result = .ok s ∧
    (Scenario.build { rooms with hosts := rooms.hosts.reverse }).result = .ok s' ∧
    Simulation.Reorders ["attic", "cellar"] s s' ∧
    (s.report s.run).transitions = [⟨.clamp 4, "cellar", "fan", "ON"⟩,
      ⟨.clamp 4, "attic", "heater", "ON"⟩, ⟨.clamp 7, "attic", "heater", "OFF"⟩] ∧
    (s'.report s'.run).transitions = [⟨.clamp 4, "attic", "heater", "ON"⟩,
      ⟨.clamp 4, "cellar", "fan", "ON"⟩, ⟨.clamp 7, "attic", "heater", "OFF"⟩] := by
  have h : rooms.buildsTo (fun s => (s.report s.run).transitions =
      [⟨.clamp 4, "cellar", "fan", "ON"⟩, ⟨.clamp 4, "attic", "heater", "ON"⟩,
        ⟨.clamp 7, "attic", "heater", "OFF"⟩]) = true := by decide +kernel
  have h' : Scenario.buildsTo { rooms with hosts := rooms.hosts.reverse }
      (fun s => (s.report s.run).transitions =
        [⟨.clamp 4, "attic", "heater", "ON"⟩, ⟨.clamp 4, "cellar", "fan", "ON"⟩,
          ⟨.clamp 7, "attic", "heater", "OFF"⟩]) = true := by decide +kernel
  obtain ⟨s, hs, ht⟩ := Scenario.of_buildsTo h
  obtain ⟨s', hs', ht'⟩ := Scenario.of_buildsTo h'
  exact ⟨s, s', hs, hs', Scenario.reorders_of_perm (List.reverse_perm _) hs hs' 0,
    of_decide_eq_true ht, of_decide_eq_true ht'⟩

end Building

end Dwell
