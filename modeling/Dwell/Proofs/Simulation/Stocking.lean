import Dwell.Proofs.Simulation.Cells

/-!
# Registries that are stocked

A machine that is configured or ticked writes its state variable and takes no value away
(`Host.IsFilled.configure`, `Host.IsFilled.tick`), and the hooks of a simulation write nothing. So
the registry of a simulation is stocked when it is built (`stocked_build`), and a run leaves it so
(`Passes.stocked`).
-/

namespace Dwell

namespace Host.IsFilled

variable {host : Host} {m : Machine} {now : Instant}

theorem replay {p : Program} (hq : p.IsQuiet) : ∀ (j : Journal) {host : Host}, host.IsFilled →
    (Journal.replay p host j).IsFilled
  | [], _, hf => hf
  | .examined _ _ _ :: j, _, hf => replay hq j hf
  | .read _ :: j, _, hf => replay hq j hf
  | .noted _ :: j, _, hf => replay hq j hf
  | .called c :: j, host, hf => by
    rw [Journal.replay, List.foldl_cons, Machine.replay_called hq]
    exact replay hq j hf
  | .fired _ target :: j, _, hf => replay hq j (hf.command p.variableName target)

theorem tick (hf : host.IsFilled) (hq : ∀ p, m.program? = some p → p.IsQuiet) (now : Instant) :
    (m.tick host now).host.IsFilled := by
  rcases hp : m.program? with _ | p
  · rw [Machine.tick, Machine.tickUntil_of_unbound host now .never hp]
    exact hf
  · rw [Machine.tick, Machine.host_tickUntil hp]
    exact hf.replay (hq p hp) _

theorem configure (hf : host.IsFilled) (m : Machine) (text : String) (now : Instant) :
    (m.configure host text now).host.IsFilled := by
  refine @Machine.configure_induction m host now (fun _ h => h.IsFilled) ?_ ?_ ?_ ?_ ?_ ?_ hf text
  · exact fun _ _ _ h => h
  · exact fun m host s h => (m.host_bind host s).symm ▸ h
  · exact fun m host s h => (m.host_addRule host s).symm ▸ h
  · exact fun m host s h => (m.host_addHold host s).symm ▸ h
  · intro m host h
    unfold Machine.reset
    split
    · exact h
    · exact h.command ..
  · exact fun _ _ h => h

theorem equip {options : Options} : ∀ {specs : List String} {host : Host} {c : Crew},
    Crew.equip options now host specs = .ok c → host.IsFilled → c.host.IsFilled
  | [], _, _, h, hf => by
    cases h
    exact hf
  | spec :: specs, host, c, h, hf => by
    obtain ⟨⟨m, host₁⟩, hm, h⟩ := bind_eq_ok h
    obtain ⟨c₁, hc, h⟩ := bind_eq_ok h
    cases h
    obtain ⟨-, rfl⟩ := of_commission hm
    have hfilled := equip hc (hf.configure _ spec now)
    exact hfilled

end Host.IsFilled

theorem HostSpec.isFilled_host (spec : HostSpec) : spec.host.IsFilled :=
  host_induction ⟨fun _ _ h => by simp at h, fun _ _ h => by simp at h⟩ fun _ hf p _ =>
    hf.declare p.1 p.2

namespace Registry

variable {r r' : Registry} {now : Instant}

theorem filled_tickStations (now : Instant) : ∀ {stations : List Station} {hosts : List Host},
    (∀ s ∈ stations, s.IsQuiet) → (∀ host ∈ hosts, host.IsFilled) →
    ∀ host ∈ (tickStations now hosts stations).2.1, host.IsFilled
  | [], _, _, hf => hf
  | s :: rest, hosts, hq, hf => by
    obtain ⟨hs, hrest⟩ := List.forall_mem_cons.1 hq
    rcases hhost : hosts[s.host]? with _ | host
    · rw [tickStations_cons_of_none hhost]
      exact filled_tickStations now hrest hf
    · rw [tickStations_cons hhost]
      refine filled_tickStations now hrest fun other hother => ?_
      rcases List.mem_or_eq_of_mem_set hother with hother | rfl
      · exact hf other hother
      · exact (hf host (List.mem_of_getElem? hhost)).tick hs now

theorem quiet_of_fixed (h : r'.fixed = r.fixed) (hq : ∀ s ∈ r.stations, s.IsQuiet) :
    ∀ s ∈ r'.stations, s.IsQuiet :=
  @forall_stations_of_fixed r r' Station.IsQuiet h hq

theorem IsStocked.applyEvents : ∀ (es : List Event) {r : Registry}, r.IsStocked →
    (r.applyEvents es).1.IsStocked
  | [], _, hr => hr
  | e :: es, r, hr => by
    simp only [Registry.applyEvents]
    split
    · exact hr
    · exact IsStocked.applyEvents es (hr.applyEvent ‹_›)

theorem IsStocked.initAll (hr : r.IsStocked) (now : Instant) : (r.initAll now).IsStocked :=
  ⟨hr.filled, quiet_of_fixed (fixed_initAll r now) hr.quiet⟩

theorem IsStocked.tickAll (hr : r.IsStocked) (now : Instant) : (r.tickAll now).2.1.IsStocked :=
  ⟨filled_tickStations now hr.quiet hr.filled, quiet_of_fixed (r.fixed_tickAll now) hr.quiet⟩

theorem Takes.stocked {st : Step} (h : r.Takes st r') (hr : r.IsStocked) : r'.IsStocked := by
  obtain ⟨between, ha, ht⟩ := h
  have hbetween := hr.applyEvents st.applied
  rw [ha] at hbetween
  have hticked := hbetween.tickAll st.now
  rwa [ht] at hticked

end Registry

theorem stocked_build {sc : Scenario} {s : Simulation} (hb : sc.build.result = .ok s) :
    s.registry.IsStocked := by
  obtain ⟨-, hr, -⟩ := Scenario.build_ok hb
  obtain ⟨-, hall⟩ := assemble_ok hr
  obtain ⟨-, -, hcrews⟩ := assemble_crews hr
  refine ⟨fun host hhost => ?_, fun st hst => ?_⟩
  · obtain ⟨i, hi⟩ := List.getElem?_of_mem hhost
    have hlen : s.registry.hosts.length = sc.hosts.length := by
      simpa using congrArg List.length (names_build hb)
    have hlt : i < sc.hosts.length := hlen ▸ (List.getElem?_eq_some_iff.1 hi).1
    obtain ⟨c, hc, hhost', -⟩ := hcrews i _ (List.getElem?_eq_getElem hlt)
    obtain rfl : host = c.host := Option.some.inj (hi.symm.trans hhost')
    exact .equip hc (HostSpec.isFilled_host _)
  · obtain ⟨_, _, -, -, hc⟩ := hall st hst
    exact fun p hp k hk => hc.watches p hp k hk ▸ Hook.isQuiet_watching

namespace Simulation

theorem Passes.stocked {w : Window} {r : Registry} {pending : List Event} {now : Instant}
    {run : Run} (h : Passes w r pending now run) (hr : r.IsStocked) : run.registry.IsStocked := by
  induction h with
  | @failed r pending now _ _ _ ha =>
    have happlied := hr.applyEvents (due now pending)
    rwa [ha] at happlied
  | finished _ ht _ | stuck _ ht _ _ => exact ht.stocked hr
  | passed _ ht _ _ _ _ ih => exact ih (ht.stocked hr)

theorem stocked_afterRuns {s : Simulation} (hr : s.registry.IsStocked) :
    ∀ n, (s.afterRuns n).registry.IsStocked
  | 0 => hr
  | n + 1 => (passes_run _).stocked ((stocked_afterRuns hr n).initAll _)

end Simulation

end Dwell
